import DeepinAnything.FsBuf.FileEvent
import DeepinAnything.Lib.Utf8
import DeepinAnything.Server.LftManager
import DeepinAnything.Server.PrepareBuf
import DeepinAnything.Server.Receive

/-!
# File events and the indexes in memory (`lftmanager.cpp`)

`onFileChanged` goes through the pairs that the event source has pushed and enters each in the index of the
file: the mount point of the path gives the index, and what follows the mount point, behind the root path of
the index, the path to insert, to remove or to rename. An index that has been changed is marked dirty.
-/

namespace DeepinAnything.Server

open ByteMem OrderedForest OrderedForest.Forest

/-! ## The code -/

/-- The encoding of file names. All strings can be encoded, and what is encoded can be decoded. -/
structure Locale where
  fromLocal8Bit : Bytes → QString
  toLocal8Bit : QString → Bytes
  from_to : ∀ s, fromLocal8Bit (toLocal8Bit s) = s
  to_append : ∀ s s', toLocal8Bit (s ++ s') = toLocal8Bit s ++ toLocal8Bit s'
  to_slash : toLocal8Bit ['/'] = [slash]

/-- What one of the handlers asks: whether the caller is allowed to, `MountCacher`, the file systems below `/` and
`/sysroot`, `QFileInfo`, and the allocator; and what stands in its array of changes. -/
structure FileHost where
  checkAuthorization : Bool
  findMountPointByPath : QString → QString
  convertMountpointFromRootToSysroot : Bool
  isDir : QString → Bool
  heap : Heap
  changes : List FsChange

/-- `QByteArray::constData` as a C string -/
def constData (bs : Bytes) : Bytes := bs.takeWhile (· ≠ 0)

/-- What `getFsBufByPath` asks, with the given indexes. -/
def FileHost.indexHost (host : FileHost) (locale : Locale) (fsBufMap : List (QString × FsBuf)) : IndexHost where
  fsBufMap := fsBufMap
  findMountPointByPath := host.findMountPointByPath
  convertMountpointFromRootToSysroot := host.convertMountpointFromRootToSysroot
  fromLocal8Bit := locale.fromLocal8Bit

namespace LftManager

variable (s : LftManager FsBuf) (locale : Locale) (host : FileHost)

/-- The indexes in memory with their contents. -/
def indexes : List (QString × FsBuf) := s.fsBufMap.map fun e => (e.1, s.content e.2)

/-- `getFsBufByPath` -/
def getFsBufByPath (path : QString) : QString × Option ℕ :=
  let index := host.indexHost locale s.indexes
  if path.head? ≠ some '/' then ([], none)
  else if host.findMountPointByPath path = [] then ([], none)
  else
    match s.fsBufMap.lookup (index.mountPoint path) with
    | some buf => (index.pathInBuf (index.mountPoint path) path (s.content buf), some buf)
    | none => ([], none)

/-- The end of the handlers: the buffer is what the call has left of it, and a call that has succeeded marks it
and has its root path returned. -/
def entered (buf : ℕ) (result : Ret × FsBuf) : LftManager FsBuf × List QString :=
  let s := { s with content := Function.update s.content buf result.2 }
  if result.1 = .ok then (s.markLFTFileToDirty buf, [locale.fromLocal8Bit result.2.getRootPath]) else (s, [])

/-- `insertFileToLFTBuf`. A path is never found without its buffer, so that no build is waited for. -/
def insertFileToLFTBuf (file : Bytes) : Option (LftManager FsBuf × List QString) :=
  if host.checkAuthorization = false then some (s, [])
  else
    let path := locale.fromLocal8Bit (constData file)
    match s.getFsBufByPath locale host path with
    | (_, none) => some (s, [])
    | (mountPath, some buf) =>
      if mountPath = [] then some (s, [])
      else
        ((s.content buf).insertPath host.heap.realloc (constData (locale.toLocal8Bit mountPath)) (host.isDir path)
          host.heap.slot).map fun r => s.entered locale buf (r.1, r.2.1)

/-- `removeFileFromLFTBuf` -/
def removeFileFromLFTBuf (file : Bytes) : Option (LftManager FsBuf × List QString) :=
  if host.checkAuthorization = false then some (s, [])
  else
    match s.getFsBufByPath locale host (locale.fromLocal8Bit (constData file)) with
    | (_, none) => some (s, [])
    | (mountPath, some buf) =>
      if mountPath = [] then some (s, [])
      else
        ((s.content buf).removePath (constData (locale.toLocal8Bit mountPath)) host.changes).map fun r =>
          s.entered locale buf (r.1, r.2.1)

/-- `renameFileOfLFTBuf`. The index is that of the new path, and as many bytes of the old path are taken to stand
before the root path as of the new one; `mid` takes a negative number for zero. -/
def renameFileOfLFTBuf (oldFile newFile : Bytes) : Option (LftManager FsBuf × List QString) :=
  if host.checkAuthorization = false then some (s, [])
  else
    match s.getFsBufByPath locale host (locale.fromLocal8Bit (constData newFile)) with
    | (_, none) => some (s, [])
    | (mountPath, some buf) =>
      if mountPath = [] then some (s, [])
      else
        let rootPath := (s.content buf).getRootPath
        let newFileNewPath := locale.toLocal8Bit mountPath
        let validSuffixSize : ℤ := newFileNewPath.length - rootPath.length
        let invalidPrefixSize : ℤ := newFile.length - validSuffixSize
        let oldFileNewPath := rootPath ++ oldFile.drop invalidPrefixSize.toNat
        ((s.content buf).renamePath host.heap (constData oldFileNewPath) (constData newFileNewPath)
          host.changes).map fun r => s.entered locale buf (r.1, r.2.1)

/-- The body of the loop of `onFileChanged`. -/
def fileChanged (action : Bytes × Bytes) : Option (LftManager FsBuf × List QString) :=
  if insertAction.isPrefixOf action.1 then s.insertFileToLFTBuf locale host action.2
  else if removeAction.isPrefixOf action.1 then s.removeFileFromLFTBuf locale host action.2
  else s.renameFileOfLFTBuf locale host action.1 action.2

/-- `onFileChanged`; what the handlers are told may differ from pair to pair. -/
def onFileChanged (locale : Locale) :
    LftManager FsBuf → List (FileHost × (Bytes × Bytes)) → Option (LftManager FsBuf)
  | s, [] => some s
  | s, (host, action) :: actions =>
    (s.fileChanged locale host action).bind fun r => onFileChanged locale r.1 actions

end LftManager

/-! ## Paths of files -/

/-- The path of the names, from the root of the file system. -/
def pathString (names : List QString) : QString := if names = [] then ['/'] else names.flatMap ('/' :: ·)

namespace Locale

variable (locale : Locale)

/-- The names are those of a file: there is one at least, and their bytes are `q`. -/
structure Spells (names : List QString) (q : List Bytes) : Prop where
  ne : names ≠ []
  encoded : names.map locale.toLocal8Bit = q
  nameOk : ∀ x ∈ q, NameOk x

variable {locale}

theorem to_nil : locale.toLocal8Bit [] = [] := by
  have h := congrArg List.length (locale.to_append [] [])
  rw [List.append_nil, List.length_append] at h
  exact List.length_eq_zero_iff.mp (by omega)

theorem to_cons_slash (s : QString) : locale.toLocal8Bit ('/' :: s) = slash :: locale.toLocal8Bit s := by
  rw [← List.singleton_append, locale.to_append, locale.to_slash, List.singleton_append]

/-- A name has no slash in its characters if it has none in its bytes. -/
theorem slash_not_mem {n : QString} (h : NameOk (locale.toLocal8Bit n)) : '/' ∉ n := by
  intro hmem
  obtain ⟨a, b, rfl⟩ := List.append_of_mem hmem
  refine h.2.2 ?_
  rw [locale.to_append, to_cons_slash]
  simp

theorem name_ne_nil {n : QString} (h : NameOk (locale.toLocal8Bit n)) : n ≠ [] := by
  rintro rfl
  exact h.1 to_nil

/-- The bytes of names that follow one another. -/
theorem to_flatMap (m : List QString) : locale.toLocal8Bit (m.flatMap ('/' :: ·)) =
    (m.map locale.toLocal8Bit).flatMap (slash :: ·) := by
  induction m with
  | nil => exact to_nil
  | cons n m ih =>
    rw [List.flatMap_cons, List.cons_append, to_cons_slash, locale.to_append, ih]
    rfl

end Locale

/-- Behind the first slash the bytes of names are their path. -/
theorem flatMap_slash {q : List Bytes} (hq : q ≠ []) : q.flatMap (slash :: ·) = slash :: joinPath q := by
  induction q with
  | nil => exact absurd rfl hq
  | cons x q ih =>
    rw [List.flatMap_cons]
    by_cases hnil : q = []
    · rw [hnil, joinPath_singleton]
      exact List.append_nil _
    · rw [ih hnil, joinPath_cons hnil]
      rfl

theorem constData_eq {bs : Bytes} (h : (0 : UInt8) ∉ bs) : constData bs = bs := by
  rw [constData, List.takeWhile_eq_self_iff]
  intro x hx
  rw [decide_eq_true_eq]
  rintro rfl
  exact h hx

/-- What stands before the names in the path of a file. -/
theorem pathString_append {names : List QString} (hne : names ≠ []) (m : List QString) :
    pathString (m ++ names) = m.flatMap ('/' :: ·) ++ names.flatMap ('/' :: ·) := by
  rw [pathString, if_neg (by simp [hne]), List.flatMap_append]

namespace Locale.Spells

variable {locale : Locale} {m names : List QString} {q : List Bytes}

theorem name (h : locale.Spells names q) {n : QString} (hn : n ∈ names) : NameOk (locale.toLocal8Bit n) :=
  h.nameOk _ (h.encoded ▸ List.mem_map_of_mem hn)

theorem ne_nil (h : locale.Spells names q) : q ≠ [] := by
  rw [← h.encoded]
  exact fun hnil => h.ne (List.map_eq_nil_iff.mp hnil)

/-- The bytes of the path of a file. -/
theorem to_pathString (h : locale.Spells names q) (m : List QString) :
    locale.toLocal8Bit (pathString (m ++ names)) =
      locale.toLocal8Bit (m.flatMap ('/' :: ·)) ++ slash :: joinPath q := by
  rw [pathString_append h.ne, locale.to_append, to_flatMap names, h.encoded, flatMap_slash h.ne_nil]

/-- The names as the handlers cut them off the path. -/
theorem cut (h : locale.Spells names q) (m : List QString) :
    (let newPath := (pathString (m ++ names)).drop (pathString m).length
      if newPath.head? = some '/' then newPath.tail else newPath) = (names.flatMap ('/' :: ·)).tail := by
  obtain ⟨n, ns, rfl⟩ := List.exists_cons_of_ne_nil h.ne
  have hn := h.name List.mem_cons_self
  rw [pathString_append h.ne]
  by_cases hm : m = []
  · subst hm
    obtain ⟨c, cs, rfl⟩ := List.exists_cons_of_ne_nil (name_ne_nil hn)
    have hc : c ≠ '/' := fun hc => slash_not_mem hn (by simp [hc])
    simp [pathString, hc]
  · rw [pathString, if_neg hm, List.drop_left]
    simp

/-- The path has no slash at its end. -/
theorem getLast?_flatMap (h : locale.Spells names q) (r : QString) :
    (names.flatMap ('/' :: ·)).tail ≠ [] ∧ (r ++ (names.flatMap ('/' :: ·)).tail).getLast? ≠ some '/' := by
  obtain ⟨front, n, rfl⟩ := List.eq_nil_or_concat' names |>.resolve_left h.ne
  have hn := h.name (n := n) (by simp)
  have htail : ∃ l, (List.flatMap (fun x : QString => '/' :: x) (front ++ [n])).tail = l ++ n := by
    cases front with
    | nil => exact ⟨[], by simp⟩
    | cons a front => exact ⟨a ++ front.flatMap ('/' :: ·) ++ ['/'], by simp⟩
  obtain ⟨l, hl⟩ := htail
  rw [hl]
  refine ⟨by simp [name_ne_nil hn], fun hlast => slash_not_mem hn ?_⟩
  rw [← List.append_assoc, List.getLast?_append_of_ne_nil _ (name_ne_nil hn)] at hlast
  exact List.mem_of_getLast? hlast

end Locale.Spells

/-! ## What a pair reports -/

/-- The names lead from the mount point with the names `m` to a file, and `MountCacher` knows that. -/
structure FileHost.Below (host : FileHost) (locale : Locale) (m names : List QString) (q : List Bytes) : Prop where
  spells : locale.Spells names q
  mountOk : ∀ n ∈ m, NameOk (locale.toLocal8Bit n)
  found : host.findMountPointByPath (pathString (m ++ names)) ≠ []
  mountPoint : (host.indexHost locale []).mountPoint (pathString (m ++ names)) = pathString m

/-- The pair is what `Server::run` pushes for the event below the mount point. Whether something new is a
directory is what `QFileInfo` says by then. -/
inductive Locale.Reports (locale : Locale) (host : FileHost) (m : List QString) : FileEvent → Bytes × Bytes → Prop
  | insert {names : List QString} {q : List Bytes} (h : host.Below locale m names q) :
      Reports locale host m (.insert q (host.isDir (pathString (m ++ names))))
        (insertAction, locale.toLocal8Bit (pathString (m ++ names)))
  | remove {names : List QString} {q : List Bytes} (h : host.Below locale m names q) :
      Reports locale host m (.remove q) (removeAction, locale.toLocal8Bit (pathString (m ++ names)))
  | rename {names names' : List QString} {src dst : List Bytes} (hsrc : locale.Spells names src)
      (hdst : host.Below locale m names' dst) :
      Reports locale host m (.rename src dst)
        (locale.toLocal8Bit (pathString (m ++ names)), locale.toLocal8Bit (pathString (m ++ names')))

/-- The buffer is the image of a tree of this shape, below the root path of a mount point. -/
def Holds (locale : Locale) (b : FsBuf) (K : Shape) : Prop :=
  ∃ root t, Represents b root t ∧ RootPath root ∧ (∃ r, locale.toLocal8Bit r = root) ∧ t.kindAt = K

namespace LftManager

variable {s s' : LftManager FsBuf} {locale : Locale} {host : FileHost} {m names : List QString} {q : List Bytes}
  {root : Bytes} {t : Tree} {buf : ℕ} {e : FileEvent} {action : Bytes × Bytes}

/-- The manager finds what the search finds. -/
theorem getFsBufByPath_indexHost (s : LftManager FsBuf) (path : QString) :
    (host.indexHost locale s.indexes).getFsBufByPath path =
      ((s.getFsBufByPath locale host path).1, (s.getFsBufByPath locale host path).2.map s.content) := by
  have hlookup : ∀ (l : List (QString × ℕ)) (key : QString),
      (l.map fun e => (e.1, s.content e.2)).lookup key = (l.lookup key).map s.content := by
    intro l key
    induction l with
    | nil => rfl
    | cons e l ih =>
      obtain ⟨k, buf⟩ := e
      rw [List.map_cons, List.lookup_cons, List.lookup_cons]
      cases key == k with
      | true => rfl
      | false => exact ih
  rw [IndexHost.getFsBufByPath, getFsBufByPath]
  simp only [FileHost.indexHost, indexes, hlookup]
  by_cases hhead : path.head? = some '/'
  swap
  · rw [if_pos hhead, if_pos hhead]
    rfl
  rw [if_neg (not_not_intro hhead), if_neg (not_not_intro hhead)]
  by_cases hfound : host.findMountPointByPath path = []
  · rw [if_pos hfound, if_pos hfound]
    rfl
  rw [if_neg hfound, if_neg hfound]
  cases s.fsBufMap.lookup _ <;> rfl

theorem head?_pathString (hne : names ≠ []) (m : List QString) : (pathString (m ++ names)).head? = some '/' := by
  rw [pathString, if_neg (by simp [hne])]
  cases m with
  | nil =>
    obtain ⟨n, ns, rfl⟩ := List.exists_cons_of_ne_nil hne
    rfl
  | cons n m => rfl

/-- The path of a file in its index. -/
theorem getFsBufByPath_below (hbelow : host.Below locale m names q)
    (hbuf : s.fsBufMap.lookup (pathString m) = some buf) (h : Represents (s.content buf) root t)
    (hencoded : ∃ r, locale.toLocal8Bit r = root) : ∃ path, path ≠ [] ∧
      s.getFsBufByPath locale host (pathString (m ++ names)) = (path, some buf) ∧
      locale.toLocal8Bit path = root ++ joinPath q := by
  obtain ⟨r, rfl⟩ := hencoded
  obtain ⟨htail, hlast⟩ := hbelow.spells.getLast?_flatMap r
  have hmount : (host.indexHost locale s.indexes).mountPoint (pathString (m ++ names)) = pathString m :=
    hbelow.mountPoint
  refine ⟨r ++ (names.flatMap ('/' :: ·)).tail, by simp [htail], ?_, ?_⟩
  · rw [getFsBufByPath]
    simp only [head?_pathString hbelow.spells.ne m, not_true_eq_false, ne_eq, if_false, hbelow.found, hmount, hbuf]
    refine congrArg (·, some buf) ?_
    rw [IndexHost.pathInBuf]
    have hcut := hbelow.spells.cut m
    simp only at hcut ⊢
    rw [hcut, h.getRootPath_eq]
    simp only [FileHost.indexHost, locale.from_to, hlast, and_false, if_false]
  · rw [locale.to_append]
    refine congrArg (locale.toLocal8Bit r ++ ·) ?_
    have hbytes := hbelow.spells.to_pathString []
    rw [pathString_append hbelow.spells.ne, List.flatMap_nil, List.nil_append, Locale.to_nil,
      List.nil_append] at hbytes
    obtain ⟨n, ns, rfl⟩ := List.exists_cons_of_ne_nil hbelow.spells.ne
    rw [List.flatMap_cons, List.cons_append, Locale.to_cons_slash] at hbytes
    exact List.tail_eq_of_cons_eq hbytes

/-- The path of a file holds no zero. -/
theorem zero_not_mem_pathString (hbelow : host.Below locale m names q) :
    (0 : UInt8) ∉ locale.toLocal8Bit (pathString (m ++ names)) := by
  rw [hbelow.spells.to_pathString, Locale.to_flatMap]
  simp only [List.mem_append, List.mem_cons, not_or, List.mem_flatMap, List.mem_map]
  refine ⟨?_, by decide, zero_not_mem_joinPath hbelow.spells.nameOk⟩
  rintro ⟨x, ⟨n, hn, rfl⟩, hx | hx⟩
  · exact absurd hx (by decide)
  · exact (hbelow.mountOk n hn).2.1 hx

/-- No action starts with a slash, as paths do. -/
theorem not_isPrefixOf_pathString (hne : names ≠ []) (m : List QString) {a : Bytes} (ha : a ≠ [])
    (hslash : a.head? ≠ some slash) : a.isPrefixOf (locale.toLocal8Bit (pathString (m ++ names))) = false := by
  rw [Bool.eq_false_iff]
  intro hpre
  obtain ⟨rest, hrest⟩ := List.isPrefixOf_iff_prefix.mp hpre
  obtain ⟨cs, hcs⟩ := List.head?_eq_some_iff.mp (head?_pathString hne m)
  rw [hcs, Locale.to_cons_slash] at hrest
  obtain ⟨x, xs, rfl⟩ := List.exists_cons_of_ne_nil ha
  exact hslash (congrArg some (List.cons.inj hrest).1)

section Handlers

variable (hauth : host.checkAuthorization = true) (hbelow : host.Below locale m names q)
  (hbuf : s.fsBufMap.lookup (pathString m) = some buf) (h : Represents (s.content buf) root t) (hroot : RootPath root)
  (hencoded : ∃ r, locale.toLocal8Bit r = root)
include hauth hbelow hbuf h hroot hencoded

omit hauth hbuf h hencoded in
theorem constData_below : constData (root ++ joinPath q) = root ++ joinPath q ∧
    locale.fromLocal8Bit (constData (locale.toLocal8Bit (pathString (m ++ names)))) = pathString (m ++ names) := by
  constructor
  · refine constData_eq ?_
    rw [List.mem_append, not_or]
    exact ⟨hroot.ok.zero, zero_not_mem_joinPath hbelow.spells.nameOk⟩
  · rw [constData_eq (zero_not_mem_pathString hbelow), locale.from_to]

theorem insertFileToLFTBuf_below :
    s.insertFileToLFTBuf locale host (locale.toLocal8Bit (pathString (m ++ names))) =
      ((FileEvent.insert q (host.isDir (pathString (m ++ names)))).call (s.content buf) root host.heap
        host.changes).map (s.entered locale buf) := by
  obtain ⟨path, hne, hpath, hbytes⟩ := getFsBufByPath_below hbelow hbuf h hencoded
  obtain ⟨hconst, hdecoded⟩ := constData_below hbelow hroot
  rw [insertFileToLFTBuf, if_neg (by simp [hauth])]
  simp only [hdecoded, hpath, if_neg hne, hbytes, hconst, FileEvent.call, Option.map_map]
  rfl

theorem removeFileFromLFTBuf_below :
    s.removeFileFromLFTBuf locale host (locale.toLocal8Bit (pathString (m ++ names))) =
      ((FileEvent.remove q).call (s.content buf) root host.heap host.changes).map (s.entered locale buf) := by
  obtain ⟨path, hne, hpath, hbytes⟩ := getFsBufByPath_below hbelow hbuf h hencoded
  obtain ⟨hconst, hdecoded⟩ := constData_below hbelow hroot
  rw [removeFileFromLFTBuf, if_neg (by simp [hauth])]
  simp only [hdecoded, hpath, if_neg hne, hbytes, hconst, FileEvent.call, Option.map_map]
  rfl

/-- The old path is cut where the new one is. -/
theorem renameFileOfLFTBuf_below {old : List QString} {src : List Bytes} (hsrc : locale.Spells old src) :
    s.renameFileOfLFTBuf locale host (locale.toLocal8Bit (pathString (m ++ old)))
        (locale.toLocal8Bit (pathString (m ++ names))) =
      ((FileEvent.rename src q).call (s.content buf) root host.heap host.changes).map (s.entered locale buf) := by
  obtain ⟨path, hne, hpath, hbytes⟩ := getFsBufByPath_below hbelow hbuf h hencoded
  obtain ⟨hconst, hdecoded⟩ := constData_below hbelow hroot
  have hconst' : constData (root ++ joinPath src) = root ++ joinPath src := constData_eq (by
    rw [List.mem_append, not_or]
    exact ⟨hroot.ok.zero, zero_not_mem_joinPath hsrc.nameOk⟩)
  have hprefix : ((locale.toLocal8Bit (pathString (m ++ names))).length : ℤ) -
      ((root ++ joinPath q).length - root.length) =
        ((locale.toLocal8Bit (m.flatMap ('/' :: ·))).length + 1 : ℕ) := by
    rw [hbelow.spells.to_pathString]
    simp only [List.length_append, List.length_cons]
    omega
  have hdrop : (locale.toLocal8Bit (pathString (m ++ old))).drop
      ((locale.toLocal8Bit (m.flatMap ('/' :: ·))).length + 1) = joinPath src := by
    rw [hsrc.to_pathString, ← List.drop_drop, List.drop_left]
    rfl
  rw [renameFileOfLFTBuf, if_neg (by simp [hauth])]
  simp only [hdecoded, hpath, if_neg hne, hbytes, h.getRootPath_eq, hprefix, Int.toNat_natCast, hdrop, hconst,
    hconst', FileEvent.call, Option.map_map]
  rfl

end Handlers

/-- A pair has the call made that is meant for its event. -/
theorem fileChanged_eq (hreports : locale.Reports host m e action) (hauth : host.checkAuthorization = true)
    (hbuf : s.fsBufMap.lookup (pathString m) = some buf) (h : Represents (s.content buf) root t)
    (hroot : RootPath root) (hencoded : ∃ r, locale.toLocal8Bit r = root) : s.fileChanged locale host action =
      (e.call (s.content buf) root host.heap host.changes).map (s.entered locale buf) := by
  rw [fileChanged]
  cases hreports with
  | insert hbelow =>
    rw [if_pos (by decide : insertAction.isPrefixOf insertAction = true)]
    exact insertFileToLFTBuf_below hauth hbelow hbuf h hroot hencoded
  | remove hbelow =>
    rw [if_neg (by decide : ¬ insertAction.isPrefixOf removeAction = true),
      if_pos (by decide : removeAction.isPrefixOf removeAction = true)]
    exact removeFileFromLFTBuf_below hauth hbelow hbuf h hroot hencoded
  | rename hsrc hbelow =>
    simp only [not_isPrefixOf_pathString hsrc.ne m (a := insertAction) (by decide) (by decide),
      not_isPrefixOf_pathString hsrc.ne m (a := removeAction) (by decide) (by decide), Bool.false_eq_true, if_false]
    exact renameFileOfLFTBuf_below hauth hbelow hbuf h hroot hencoded hsrc

/-- Without an index of the file, or without the right to change one, nothing happens. -/
theorem fileChanged_ignored (hreports : locale.Reports host m e action)
    (hnot : host.checkAuthorization = false ∨ s.fsBufMap.lookup (pathString m) = none) :
    s.fileChanged locale host action = some (s, []) := by
  have hindex : ∀ {names : List QString} {q : List Bytes}, host.Below locale m names q →
      s.fsBufMap.lookup (pathString m) = none → s.getFsBufByPath locale host
        (locale.fromLocal8Bit (constData (locale.toLocal8Bit (pathString (m ++ names))))) = ([], none) := by
    intro names q hbelow hnone
    have hmount : (host.indexHost locale s.indexes).mountPoint (pathString (m ++ names)) = pathString m :=
      hbelow.mountPoint
    rw [constData_eq (zero_not_mem_pathString hbelow), locale.from_to, getFsBufByPath]
    simp only [hmount, hnone, ite_self]
  cases hauth : host.checkAuthorization with
  | false =>
    rw [fileChanged, insertFileToLFTBuf, removeFileFromLFTBuf, renameFileOfLFTBuf, if_pos hauth, if_pos hauth,
      if_pos hauth, ite_self, ite_self]
  | true =>
    have hnone := hnot.resolve_left (by simp [hauth])
    rw [fileChanged]
    cases hreports with
    | insert hbelow =>
      rw [if_pos (by decide : insertAction.isPrefixOf insertAction = true), insertFileToLFTBuf,
        if_neg (by simp [hauth])]
      simp only [hindex hbelow hnone]
    | remove hbelow =>
      rw [if_neg (by decide : ¬ insertAction.isPrefixOf removeAction = true),
        if_pos (by decide : removeAction.isPrefixOf removeAction = true), removeFileFromLFTBuf,
        if_neg (by simp [hauth])]
      simp only [hindex hbelow hnone]
    | rename hsrc hbelow =>
      simp only [not_isPrefixOf_pathString hsrc.ne m (a := insertAction) (by decide) (by decide),
        not_isPrefixOf_pathString hsrc.ne m (a := removeAction) (by decide) (by decide), Bool.false_eq_true, if_false]
      rw [renameFileOfLFTBuf, if_neg (by simp [hauth])]
      simp only [hindex hbelow hnone]

/-! ## One event -/

/-- The event is one that the index can take: its paths fit, it is no rename that the checks overlook, and there is
memory if it is to be carried out. -/
def Takes (b : FsBuf) (heap : Heap) (e : FileEvent) : Prop :=
  ∃ root t, Represents b root t ∧ e.Addressed root ∧ e.Tame t.kindAt ∧ (e.Possible t.kindAt → e.Supplied b t heap)

/-- The shapes of the indexes in memory, by the addresses of their buffers. -/
abbrev Shapes := ℕ → Shape

/-- Every index in memory has the shape that is kept for it. -/
def HoldAll (s : LftManager FsBuf) (locale : Locale) (K : Shapes) : Prop :=
  ∀ buf ∈ s.fsBufList, Holds locale (s.content buf) (K buf)

variable {K : Shapes}

/-- A handler that is told of an event has its index make of it what is to be made of it, and succeeds if the index
admits the event. -/
theorem exists_entered {shape : Shape} (hauth : host.checkAuthorization = true)
    (hreports : locale.Reports host m e action) (hbuf : s.fsBufMap.lookup (pathString m) = some buf)
    (hholds : Holds locale (s.content buf) shape) (htakes : Takes (s.content buf) host.heap e) :
    ∃ ret b', s.fileChanged locale host action = some (s.entered locale buf (ret, b')) ∧
      Holds locale b' (e.replay shape) ∧ (ret = .ok ↔ e.Possible shape) ∧ (ret ≠ .ok → b' = s.content buf) := by
  obtain ⟨root, t, hrep, hroot, hencoded, hkind⟩ := hholds
  obtain ⟨root', t', hrep', ha, htame, hsupply⟩ := htakes
  obtain rfl : root' = root := hrep'.getRootPath_eq.symm.trans hrep.getRootPath_eq
  have hsame : t'.kindAt = shape := (funext (hrep'.kindAt_unique hrep)).trans hkind
  obtain ⟨ret, b', hcall, hout⟩ := hrep'.outcome hroot ha htame hsupply host.changes
  obtain ⟨t₁, hrep₁, hkind₁⟩ := hout.tree
  have hiff := hout.ok_iff
  rw [hsame] at hkind₁ hiff
  refine ⟨ret, b', ?_, ⟨_, t₁, hrep₁, hroot, hencoded, hkind₁⟩, hiff, hout.unchanged⟩
  rw [fileChanged_eq hreports hauth hbuf hrep' hroot hencoded, hcall]
  rfl

theorem entered_frame (s : LftManager FsBuf) (buf : ℕ) (result : Ret × FsBuf) :
    (s.entered locale buf result).1.fsBufMap = s.fsBufMap ∧
      (s.entered locale buf result).1.content = Function.update s.content buf result.2 := by
  rw [entered]
  split <;> exact ⟨rfl, rfl⟩

/-- What the handler changes it marks, and it changes nothing else. -/
theorem exists_fileChanged (hkept : s.Kept) (hall : s.HoldAll locale K) (hauth : host.checkAuthorization = true)
    (hreports : locale.Reports host m e action) (hbuf : s.fsBufMap.lookup (pathString m) = some buf)
    (htakes : Takes (s.content buf) host.heap e) :
    ∃ s' paths, s.fileChanged locale host action = some (s', paths) ∧ s'.Kept ∧
      s'.HoldAll locale (Function.update K buf (e.replay (K buf))) ∧
      s.fsBufDirtyList ⊆ s'.fsBufDirtyList ∧
      (e.replay (K buf) ≠ K buf → buf ∈ s'.fsBufDirtyList) ∧ (¬ e.Possible (K buf) → s' = s) := by
  have hmem : buf ∈ s.fsBufList := List.mem_map.mpr ⟨_, mem_of_lookup hbuf, rfl⟩
  obtain ⟨ret, b', hcall, hholds, hiff, hunchanged⟩ := exists_entered hauth hreports hbuf (hall buf hmem) htakes
  have hupdate : ∀ b ∈ s.fsBufList, Holds locale (Function.update s.content buf b' b)
      (Function.update K buf (e.replay (K buf)) b) := fun b hb => by
    by_cases hne : b = buf
    · rw [hne, Function.update_self, Function.update_self]
      exact hholds
    · rw [Function.update_of_ne hne, Function.update_of_ne hne]
      exact hall b hb
  rw [hcall]
  by_cases hok : ret = .ok
  · have hentered : s.entered locale buf (ret, b') = (s.change buf true b', [locale.fromLocal8Bit b'.getRootPath]) := by
      rw [entered, if_pos hok]
      rfl
    exact ⟨_, _, congrArg some hentered, hkept.change buf b', hupdate,
      fun b hb => List.mem_insert_iff.mpr (.inr hb), fun _ => List.mem_insert_iff.mpr (.inl rfl),
      fun hnot => absurd (hiff.mp hok) hnot⟩
  · have hnot := fun hpossible => hok (hiff.mpr hpossible)
    have hsame' : ({ s with content := Function.update s.content buf b' } : LftManager FsBuf) = s := by
      rw [hunchanged hok, Function.update_eq_self]
    have hentered : s.entered locale buf (ret, b') = (s, []) := by
      rw [entered, if_neg hok]
      exact congrArg (·, []) hsame'
    refine ⟨s, [], congrArg some hentered, hkept, ?_, List.Subset.refl _, fun hne => ?_, fun _ => rfl⟩
    · rw [FileEvent.replay_of_not_possible hnot, Function.update_eq_self]
      exact hall
    · exact absurd (FileEvent.replay_of_not_possible hnot) hne

/-! ## Runs -/

/-- The pairs report events that the indexes can take, one behind the other, and that make `K'` of the shapes `K`. -/
inductive Reported (locale : Locale) :
    LftManager FsBuf → Shapes → List (FileHost × (Bytes × Bytes)) → Shapes → Prop
  | nil (s : LftManager FsBuf) (K : Shapes) : Reported locale s K [] K
  | cons {s : LftManager FsBuf} {K K' : Shapes} {host : FileHost} {m : List QString} {e : FileEvent}
      {action : Bytes × Bytes} {actions : List (FileHost × (Bytes × Bytes))} {buf : ℕ}
      (hauth : host.checkAuthorization = true) (hreports : locale.Reports host m e action)
      (hbuf : s.fsBufMap.lookup (pathString m) = some buf) (htakes : Takes (s.content buf) host.heap e)
      (hrest : ∀ s' paths, s.fileChanged locale host action = some (s', paths) →
        Reported locale s' (Function.update K buf (e.replay (K buf))) actions K') :
      Reported locale s K ((host, action) :: actions) K'
  | ignored {s : LftManager FsBuf} {K K' : Shapes} {host : FileHost} {m : List QString} {e : FileEvent}
      {action : Bytes × Bytes} {actions : List (FileHost × (Bytes × Bytes))}
      (hreports : locale.Reports host m e action)
      (hnot : host.checkAuthorization = false ∨ s.fsBufMap.lookup (pathString m) = none)
      (hrest : Reported locale s K actions K') : Reported locale s K ((host, action) :: actions) K'

/-- What a call of `onFileChanged` comes to. -/
theorem exists_onFileChanged {actions : List (FileHost × (Bytes × Bytes))} {K K' : Shapes}
    (hreported : Reported locale s K actions K') (hkept : s.Kept) (hall : s.HoldAll locale K) :
    ∃ s', onFileChanged locale s actions = some s' ∧ s'.Kept ∧ s'.HoldAll locale K' ∧
      s.fsBufDirtyList ⊆ s'.fsBufDirtyList ∧ ∀ buf, K' buf ≠ K buf → buf ∈ s'.fsBufDirtyList := by
  induction hreported with
  | nil s K => exact ⟨s, rfl, hkept, hall, List.Subset.refl _, fun buf hne => absurd rfl hne⟩
  | @cons s K K' host m e action actions buf hauth hreports hbuf htakes _ ih =>
    obtain ⟨s₁, paths, hstep, hkept₁, hall₁, hsub, hmarked, -⟩ :=
      exists_fileChanged hkept hall hauth hreports hbuf htakes
    obtain ⟨s', hrun, hkept', hall', hsub', hmarked'⟩ := ih s₁ paths hstep hkept₁ hall₁
    refine ⟨s', ?_, hkept', hall', fun b hb => hsub' (hsub hb), fun b hne => ?_⟩
    · rw [onFileChanged, hstep]
      exact hrun
    · by_cases hlater : K' b = Function.update K buf (e.replay (K buf)) b
      · -- it is this event that has changed the shape
        rw [hlater] at hne
        by_cases hb : b = buf
        · rw [hb, Function.update_self] at hne
          exact hb ▸ hsub' (hmarked hne)
        · rw [Function.update_of_ne hb] at hne
          exact absurd rfl hne
      · exact hmarked' b hlater
  | ignored hreports hnot _ ih =>
    obtain ⟨s', hrun, hrest⟩ := ih hkept hall
    refine ⟨s', ?_, hrest⟩
    rw [onFileChanged, fileChanged_ignored hreports hnot]
    exact hrun

/-- The states that a manager comes to whose indexes hold the shapes kept for them at the beginning, with the shapes
that the events reported since then make of these. Between the events files are written and mount points go away. -/
inductive Tracked (locale : Locale) : LftManager FsBuf → Shapes → Prop
  | initial {s : LftManager FsBuf} {K : Shapes} (hkept : s.Kept) (hall : s.HoldAll locale K) : Tracked locale s K
  | onFileChanged {s s' : LftManager FsBuf} {K K' : Shapes} {actions : List (FileHost × (Bytes × Bytes))}
      (hs : Tracked locale s K) (hreported : Reported locale s K actions K')
      (hstep : onFileChanged locale s actions = some s') : Tracked locale s' K'
  | sync {s : LftManager FsBuf} {K : Shapes} (hs : Tracked locale s K) (ready : Bool) (save : QString → Bool)
      (mountPoint : QString) : Tracked locale (s.sync ready save mountPoint) K
  | syncAll {s : LftManager FsBuf} {K : Shapes} (hs : Tracked locale s K) (ready : Bool) (save : QString → Bool) :
      Tracked locale (s.syncAll ready save) K
  | unmountPath {s : LftManager FsBuf} {K : Shapes} (hs : Tracked locale s K) (ready : Bool) (save : QString → Bool)
      (path : QString) : Tracked locale (s.unmountPath ready save path) K

/-- What holds of the indexes in memory does not depend on what else the manager keeps. -/
theorem HoldAll.congr {K : Shapes} (h : s.HoldAll locale K) (hlist : ∀ b ∈ s'.fsBufList, b ∈ s.fsBufList)
    (hcontent : s'.content = s.content) : s'.HoldAll locale K := fun b hb => by
  rw [hcontent]
  exact h b (hlist b hb)

/-- A mount point that goes away takes its index out of memory and changes no other. -/
theorem Kept.unmountPath_frame (h : s.Kept) (ready : Bool) (save : QString → Bool) (path : QString) :
    (∀ b ∈ (s.unmountPath ready save path).fsBufList, b ∈ s.fsBufList) ∧
      (s.unmountPath ready save path).content = s.content := by
  obtain ⟨-, watchers, heq⟩ | ⟨buf, s', -, -, hsync, heq⟩ := h.injective.unmountPath_cases ready save path
  · rw [heq]
    exact ⟨fun _ hb => hb, rfl⟩
  · rw [heq]
    refine ⟨fun b hb => ?_, hsync.content_eq⟩
    rw [mem_removeBuf, hsync.fsBufList_eq] at hb
    exact hb.1

theorem Tracked.holdAll {K : Shapes} (h : Tracked locale s K) : s.Kept ∧ s.HoldAll locale K := by
  induction h with
  | initial hkept hall => exact ⟨hkept, hall⟩
  | onFileChanged _ hreported hstep ih =>
    obtain ⟨s₁, hrun, hkept, hall, -⟩ := exists_onFileChanged hreported ih.1 ih.2
    obtain rfl := Option.some.inj (hrun.symm.trans hstep)
    exact ⟨hkept, hall⟩
  | sync _ ready save mountPoint ih =>
    have hsync := ih.1.injective.sync ready save mountPoint
    exact ⟨hsync.trans_kept ih.1, ih.2.congr (fun b hb => hsync.fsBufList_eq ▸ hb) hsync.content_eq⟩
  | @syncAll s K _ ready save ih =>
    have hsync := ih.1.injective.sync ready save []
    obtain ⟨hmap, -, hcontent, -⟩ := cleanDirtyLFTFiles_frame (s := s.sync ready save [])
    refine ⟨(hsync.trans_kept ih.1).cleanDirtyLFTFiles,
      ih.2.congr (fun b hb => ?_) (hcontent.trans hsync.content_eq)⟩
    rwa [fsBufList, show (s.syncAll ready save).fsBufMap = s.fsBufMap from hmap.trans hsync.fsBufMap_eq] at hb
  | unmountPath _ ready save path ih =>
    obtain ⟨hlist, hcontent⟩ := ih.1.unmountPath_frame ready save path
    exact ⟨ih.1.unmountPath ready save path, ih.2.congr hlist hcontent⟩

/-- In every run the indexes in memory are images of trees with the shapes that the reported events make, whatever is
written or goes away between them. A search finds a file in the index of its mount point if and only if the events say
that it is there, and of the kind they say; the next call of `onFileChanged` returns, keeps all this up, and marks
every index whose shape it has changed. -/
theorem tracked_shapes {K : Shapes} (h : Tracked locale s K) :
    s.HoldAll locale K ∧
    (∀ host m names q buf, FileHost.Below host locale m names q → s.fsBufMap.lookup (pathString m) = some buf →
      ∃ path, (host.indexHost locale s.indexes).getFsBufByPath (pathString (m ++ names)) =
          (path, some (s.content buf)) ∧
        ((s.content buf).getPathOffset (locale.toLocal8Bit path) ≠ 0 ↔ (K buf q).isSome) ∧
        ∀ isDir, K buf q = some isDir →
          (s.content buf).doIsFile ((s.content buf).getPathOffset (locale.toLocal8Bit path)) = !isDir) ∧
    ∀ actions K', Reported locale s K actions K' → ∃ s', onFileChanged locale s actions = some s' ∧
      Tracked locale s' K' ∧ ∀ buf, K' buf ≠ K buf → buf ∈ s'.fsBufDirtyList := by
  obtain ⟨hkept, hall⟩ := h.holdAll
  refine ⟨hall, fun host m names q buf hbelow hbuf => ?_, fun actions K' hreported => ?_⟩
  · obtain ⟨root, t, hrep, hroot, hencoded, hkind⟩ := hall buf (List.mem_map.mpr ⟨_, mem_of_lookup hbuf, rfl⟩)
    obtain ⟨path, -, hpath, hbytes⟩ := getFsBufByPath_below hbelow hbuf hrep hencoded
    refine ⟨path, ?_, ?_, fun isDir hdir => ?_⟩
    · rw [getFsBufByPath_indexHost, hpath]
      rfl
    · rw [hbytes, ← hkind]
      exact hrep.getPathOffset_joinPath_ne_zero hbelow.spells.nameOk
    · rw [← hkind] at hdir
      rw [hbytes]
      exact ((hrep.finds hdir) _ (address_joinPath hbelow.spells.nameOk)).2 hbelow.spells.ne_nil
  · obtain ⟨s', hrun, -, -, -, hmarked⟩ := exists_onFileChanged hreported hkept hall
    exact ⟨s', hrun, h.onFileChanged hreported hrun, hmarked⟩

/-! ## A directory that is renamed -/

/-- The encoding of file names in UTF-8. -/
def utf8 : Locale where
  fromLocal8Bit bs := (Utf8.decode bs).getD []
  toLocal8Bit := Utf8.encode
  from_to s := by rw [Utf8.decode_encode, Option.getD_some]
  to_append := Utf8.encode_append
  to_slash := by decide

/-- The directory `d` with the file `x`, and the file `a`. -/
def sampleDir : Tree := .node [100] (.leaf [120] .nil) (.leaf [97] .nil)

/-- The index of what is mounted at `/data`. -/
def sampleIndexes : LftManager FsBuf where
  fsBufMap := [("/data".toList, 8)]
  fsBufToFileMap := fun _ => []
  fsBufDirtyList := []
  fsWatcherMap := []
  content := fun _ => imageBuf [47, 100, 97, 116, 97, 47] sampleDir 128
  disk := fun _ => none

/-- A host with one mount point and enough memory. -/
def sampleFileHost : FileHost where
  checkAuthorization := true
  findMountPointByPath := fun _ => "/data".toList
  convertMountpointFromRootToSysroot := false
  isDir := fun _ => false
  heap := FsBuf.freeHeap
  changes := []

theorem represents_sampleDir :
    Represents (imageBuf [47, 100, 97, 116, 97, 47] sampleDir 128) [47, 100, 97, 116, 97, 47] sampleDir :=
  represents_imageBuf _ _ _ ⟨rfl, rfl, by decide⟩ (by decide) (by decide) (by decide)

theorem sampleIndexes_tracked : Tracked utf8 sampleIndexes fun _ => sampleDir.kindAt := by
  refine .initial ⟨fun b _ b' _ _ hfile => absurd rfl hfile, fun b _ _ hfile => absurd rfl hfile⟩ fun buf _ => ?_
  exact ⟨_, _, represents_sampleDir, ⟨represents_sampleDir.root_ok, by decide⟩, ⟨"/data/".toList, by decide⟩, rfl⟩

/-- The rename of `d` to `e`. -/
theorem canRename_sampleDir : CanRename sampleDir.kindAt [[100]] [[101]] :=
  ⟨by decide, by decide, by decide, by decide, fun hthere => absurd hthere (by decide)⟩

theorem sampleIndexes_takes : Takes (sampleIndexes.content 8) FsBuf.freeHeap (.rename [[100]] [[101]]) := by
  refine ⟨_, _, represents_sampleDir, ⟨⟨by decide, by decide⟩, by decide, by decide⟩, .inl canRename_sampleDir,
    fun _ q n e d name hsrc hentry hdst => ?_⟩
  obtain ⟨rfl, hn⟩ := List.append_inj' (show [] ++ [[100]] = q ++ [n] from hsrc) rfl
  obtain ⟨rfl, hname⟩ := List.append_inj' (show [] ++ [[101]] = d ++ [name] from hdst) rfl
  obtain rfl : [100] = n := by simpa using hn
  obtain rfl : [101] = name := by simpa using hname
  obtain rfl : Entry.node (.leaf [120] .nil) = e := Option.some.inj hentry
  refine ⟨fun _ => ⟨rfl, by decide⟩, fun _ => ⟨by decide, fun k hk => ?_⟩⟩
  obtain rfl : (Forest.leaf [97] .nil : Tree) = k := Entry.node.inj (Option.some.inj hk)
  decide

theorem sampleIndexes_reported : Reported utf8 sampleIndexes (fun _ => sampleDir.kindAt)
    [(sampleFileHost, utf8.toLocal8Bit "/data/d".toList, utf8.toLocal8Bit "/data/e".toList)]
    (Function.update (fun _ => sampleDir.kindAt) 8 (FileEvent.apply sampleDir.kindAt (.rename [[100]] [[101]]))) := by
  have hspells : utf8.Spells ["d".toList] [[100]] := ⟨by decide, by decide, by decide⟩
  have hbelow : sampleFileHost.Below utf8 ["data".toList] ["e".toList] [[101]] :=
    ⟨⟨by decide, by decide, by decide⟩, by decide, by decide, rfl⟩
  have hreplay := FileEvent.replay_of_possible (e := .rename [[100]] [[101]]) canRename_sampleDir
  rw [← hreplay]
  exact .cons (m := ["data".toList]) rfl (.rename hspells hbelow) (by decide) sampleIndexes_takes
    fun s' paths _ => .nil s' _

/-- `/data/d` is renamed to `/data/e`, and the file in it is found there. -/
theorem tracked_shapes_sample : ∃ s', onFileChanged utf8 sampleIndexes
      [(sampleFileHost, utf8.toLocal8Bit "/data/d".toList, utf8.toLocal8Bit "/data/e".toList)] = some s' ∧
    8 ∈ s'.fsBufDirtyList ∧ ∃ K, s'.HoldAll utf8 K ∧ K 8 [[101], [120]] = some false ∧ K 8 [[100]] = none := by
  obtain ⟨s', hrun, htracked, hmarked⟩ := (tracked_shapes sampleIndexes_tracked).2.2 _ _ sampleIndexes_reported
  refine ⟨s', hrun, hmarked 8 fun hsame => ?_, _, (tracked_shapes htracked).1, by decide, by decide⟩
  have hgone := congrFun hsame [[100]]
  revert hgone
  decide

/-- A directory that is not at its path any more when its event is handled is taken for a file. When its rename has
been handled too, the index refuses all that comes into being below its new name. -/
theorem replay_renamed_early {K : Shape} {q q' : List Bytes} (hinsert : (FileEvent.insert q false).Possible K)
    (hrename : (FileEvent.rename q q').Possible ((FileEvent.insert q false).apply K)) (x : Bytes) (isDir : Bool) :
    (FileEvent.rename q q').replay ((FileEvent.insert q false).replay K) q' = some false ∧
      ¬ (FileEvent.insert (q' ++ [x]) isDir).Possible
        ((FileEvent.rename q q').replay ((FileEvent.insert q false).replay K)) := by
  rw [FileEvent.replay_of_possible hinsert, FileEvent.replay_of_possible hrename]
  have hfile : (FileEvent.rename q q').apply ((FileEvent.insert q false).apply K) q' = some false := by
    simp only [FileEvent.apply]
    rw [if_pos List.prefix_rfl, List.drop_length, List.append_nil, Function.update_self]
  refine ⟨hfile, fun hpossible => ?_⟩
  have hparent := hpossible.2
  rw [List.dropLast_concat, hfile] at hparent
  cases hparent

end LftManager

end DeepinAnything.Server
