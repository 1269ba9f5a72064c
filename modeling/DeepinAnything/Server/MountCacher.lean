import DeepinAnything.Lib.Loop
import DeepinAnything.Server.FileEvents

/-!
# The mount point of a path (`mountcacher.cpp`)

`findMountPointByPath` asks `libmount` for the mount point of the path, and goes up to the directory as long as there
is no answer, because the path is that of a file that has been removed, or as the mount point is that of a virtual
file system. `libmount` follows links, so that a link is looked up by its directory.
-/

namespace DeepinAnything.Server

open ByteMem

/-! ## The code -/

/-- `major` of `sys/sysmacros.h` -/
def major (dev : ℕ) : ℕ := (dev >>> 8) &&& 0xfff ||| (dev >>> 32) &&& 0xfffff000

/-- What `libmount` has read of a line of the mount table. -/
structure LibmntFs where
  devno : ℕ
  fstype : Bytes
  source : Bytes
  target : Bytes
  root : Bytes
deriving DecidableEq

/-- What is asked of Qt, of the file system and of `libmount`. `lstat` tells whether a path is a symbolic link, and
its device. -/
structure MountHost where
  fromUtf8 : Bytes → QString
  absolutePath : QString → QString
  lstat : Bytes → Option (Bool × ℕ)
  mntGetMountpoint : Bytes → Option Bytes

/-- `MountPoint` -/
structure MountCacher.MountPoint where
  mountedSource : QString
  realDevice : QString
  mountTarget : QString
  mountRoot : QString
  mountType : QString
  deviceId : ℕ
deriving DecidableEq

structure MountCacher where
  mountPointList : List MountCacher.MountPoint
deriving DecidableEq

/-- The paths of the loop of `findMountPointByPath`. -/
structure MountCacher.Climb where
  result : QString
  resultPath : QString

namespace MountCacher

variable (locale : Locale) (host : MountHost) (s : MountCacher)

/-- An entry of the list. -/
def info (fs : LibmntFs) : MountPoint where
  deviceId := fs.devno
  mountType := locale.fromLocal8Bit fs.fstype
  mountedSource := locale.fromLocal8Bit fs.source
  mountTarget := locale.fromLocal8Bit fs.target
  mountRoot := locale.fromLocal8Bit fs.root
  realDevice := locale.fromLocal8Bit fs.source

/-- `updateMountPoints`. A table that cannot be read leaves the list as it is. -/
def updateMountPoints (table : Option (List LibmntFs)) : MountCacher :=
  match table with
  | none => s
  | some table =>
    ⟨(table.map (info locale)).filter fun info => major info.deviceId ≠ 0 ∨ info.mountType = fuseDlnfs⟩

/-- The path that `findMountPointByPath` starts at. -/
def startPath (path : QString) : QString :=
  match host.lstat (locale.toLocal8Bit path) with
  | some (true, dev) =>
    match host.lstat (locale.toLocal8Bit (host.absolutePath path)) with
    | some (_, parentDev) => if dev = parentDev then host.absolutePath path else path
    | none => path
  | _ => path

/-- The mount point is that of a virtual file system. -/
def findVirtual (result : QString) : Bool :=
  s.mountPointList.any fun info => result = info.mountTarget ∧ major info.deviceId = 0

/-- What stands before the last slash, or the root if it is the first. -/
def directory (path : QString) : QString :=
  let left := (path.reverse.dropWhile (· ≠ '/')).tail.reverse
  if left = [] then ['/'] else left

/-- The end of a round: it goes up to the directory, if there is one. -/
def goUp (v : Climb) : Climb ⊕ QString :=
  if v.resultPath = ['/'] then .inr v.resultPath
  else if '/' ∉ v.resultPath then .inr v.result
  else .inl { v with resultPath := directory v.resultPath }

/-- A round of the loop of `findMountPointByPath`. -/
def round (hardreal : Bool) (v : Climb) : Climb ⊕ QString :=
  match host.mntGetMountpoint (constData (locale.toLocal8Bit v.resultPath)) with
  | some mountPoint =>
    let result := host.fromUtf8 mountPoint
    if hardreal && s.findVirtual result then goUp ⟨result, result⟩ else .inr result
  | none => goUp v

/-- `findMountPointByPath`, in at most `fuel` rounds -/
def findMountPointByPath (fuel : ℕ) (path : QString) (hardreal : Bool) : Option QString :=
  Loop.run (s.round locale host hardreal) fuel ⟨[], startPath locale host path⟩

/-- `pathMatchType` -/
def pathMatchType (fuel : ℕ) (path type : QString) : Option Bool :=
  (s.findMountPointByPath locale host fuel path false).map fun point =>
    s.mountPointList.any fun info => point = info.mountTarget ∧ type = info.mountType

end MountCacher

/-! ## What mount points are -/

/-- The path is a mount point: it exists, and on another device than its directory. -/
def MountedAt (dev : List QString → Option ℕ) (a : List QString) : Prop :=
  dev a ≠ none ∧ (a = [] ∨ dev a ≠ dev a.dropLast)

/-- On the way to `p` the mount point `a` is the last one that is not passed over, or the root if there is none. -/
structure Nearest (dev : List QString → Option ℕ) (passed : List QString → Prop) (p a : List QString) : Prop where
  above : a <+: p
  mounted : a = [] ∨ MountedAt dev a ∧ ¬ passed a
  last : ∀ b, b <+: p → MountedAt dev b → ¬ passed b → b <+: a

/-- The names are those of a path that goes down: none of them is `.` or `..`. -/
def Locale.Names (locale : Locale) (p : List QString) : Prop :=
  ∀ n ∈ p, NameOk (locale.toLocal8Bit n) ∧ n ≠ ['.'] ∧ n ≠ ['.', '.']

theorem Locale.Names.nameOk {locale : Locale} {p : List QString} (h : locale.Names p) {n : QString} (hn : n ∈ p) :
    NameOk (locale.toLocal8Bit n) :=
  (h n hn).1

/-- The host has files on the devices `dev`, as `stat` gives them, and `libmount` finds the mount points by these:
from the mount point of a path that exists to the path itself all is on one device. -/
structure MountHost.On (host : MountHost) (locale : Locale) (dev : List QString → Option ℕ) : Prop where
  fromUtf8 : ∀ s, host.fromUtf8 (locale.toLocal8Bit s) = s
  absolutePath : ∀ p, locale.Names p → host.absolutePath (pathString p) = pathString p.dropLast
  root : dev [] ≠ none
  directory : ∀ p n, dev (p ++ [n]) ≠ none → dev p ≠ none
  missing : ∀ p, locale.Names p → dev p = none →
    host.mntGetMountpoint (locale.toLocal8Bit (pathString p)) = none
  found : ∀ p, locale.Names p → dev p ≠ none → ∃ a, a <+: p ∧
    host.mntGetMountpoint (locale.toLocal8Bit (pathString p)) = some (locale.toLocal8Bit (pathString a)) ∧
    (a = [] ∨ dev a ≠ dev a.dropLast) ∧ ∀ b, a <+: b → b <+: p → dev b = dev p

/-- The path is a symbolic link on the device of its directory. -/
def MountHost.LinkHere (host : MountHost) (locale : Locale) (path : QString) : Prop :=
  ∃ dev l, host.lstat (locale.toLocal8Bit path) = some (true, dev) ∧
    host.lstat (locale.toLocal8Bit (host.absolutePath path)) = some (l, dev)

/-- A file system with long names is mounted on the path. -/
def LibmntFs.LongNamesAt (locale : Locale) (table : List LibmntFs) (a : List QString) : Prop :=
  ∃ fs ∈ table, locale.fromLocal8Bit fs.target = pathString a ∧ locale.fromLocal8Bit fs.fstype = fuseDlnfs ∧
    major fs.devno = 0

section

variable {locale : Locale} {host : MountHost} {dev : List QString → Option ℕ} {passed : List QString → Prop}
  {p a a' : List QString} {n : QString}

namespace Nearest

theorem unique (h : Nearest dev passed p a) (h' : Nearest dev passed p a') : a = a' := by
  have hle : ∀ {a a'}, Nearest dev passed p a → Nearest dev passed p a' → a <+: a' := by
    intro a a' h h'
    rcases h.mounted with rfl | ⟨hmounted, hnot⟩
    · exact List.nil_prefix
    · exact h'.last a h.above hmounted hnot
  exact (hle h h').eq_of_length ((hle h h').length_le.antisymm (hle h' h).length_le)

/-- A path that is no mount point, or one that is passed over, has the nearest one of its directory. -/
theorem snoc (h : Nearest dev passed p a) (hnot : MountedAt dev (p ++ [n]) → passed (p ++ [n])) :
    Nearest dev passed (p ++ [n]) a := by
  refine ⟨h.above.trans (List.prefix_append _ _), h.mounted, fun b hb hmounted hpassed => ?_⟩
  rcases List.prefix_concat_iff.mp hb with rfl | hb
  · exact absurd (hnot hmounted) hpassed
  · exact h.last b hb hmounted hpassed

/-- No mount point stands between the path and one that all is on one device with. -/
theorem of_between {c : List QString} (hc : c <+: p) (hsame : ∀ b, c <+: b → b <+: p → dev b = dev p)
    (h : Nearest dev passed c a) : Nearest dev passed p a := by
  refine ⟨h.above.trans hc, h.mounted, fun b hb hmounted hpassed => ?_⟩
  rcases List.prefix_or_prefix_of_prefix hb hc with hbc | hcb
  · exact h.last b hbc hmounted hpassed
  obtain ⟨rest, rfl⟩ := hcb
  rcases List.eq_nil_or_concat' rest with rfl | ⟨front, x, rfl⟩
  · exact h.last _ (by rw [List.append_nil]) hmounted hpassed
  · -- the directory is on the same device
    rw [← List.append_assoc] at hb hmounted
    have hfront : c ++ front <+: p := (List.prefix_append _ _).trans hb
    rcases hmounted.2 with hnil | hother
    · simp at hnil
    · rw [List.dropLast_concat, hsame _ (List.prefix_append _ _) hfront,
        hsame _ ((List.prefix_append _ _).trans (List.prefix_append _ _)) hb] at hother
      exact absurd rfl hother

end Nearest

/-! ## The loop -/

namespace MountCacher

theorem names_snoc (h : locale.Names (p ++ [n])) : locale.Names p ∧ NameOk (locale.toLocal8Bit n) :=
  ⟨fun m hm => h m (List.mem_append_left _ hm), h.nameOk (List.mem_append_right _ (List.mem_singleton_self n))⟩

theorem pathString_ne_slash (h : NameOk (locale.toLocal8Bit n)) : pathString (p ++ [n]) ≠ ['/'] := by
  rw [pathString, if_neg (by simp), List.flatMap_append]
  intro heq
  have hlength := congrArg List.length heq
  have hn := List.length_pos_of_ne_nil (Locale.name_ne_nil h)
  simp at hlength
  omega

theorem directory_pathString (h : NameOk (locale.toLocal8Bit n)) :
    '/' ∈ pathString (p ++ [n]) ∧ directory (pathString (p ++ [n])) = pathString p := by
  have hpath : pathString (p ++ [n]) = p.flatMap ('/' :: ·) ++ '/' :: n := by
    rw [pathString, if_neg (by simp), List.flatMap_append, List.flatMap_singleton]
  have hname : ∀ c ∈ n.reverse, decide (c ≠ '/') = true := fun c hc => by
    rw [decide_eq_true_eq]
    rintro rfl
    exact Locale.slash_not_mem h (List.mem_reverse.mp hc)
  have hleft : ((pathString (p ++ [n])).reverse.dropWhile (· ≠ '/')).tail.reverse = p.flatMap ('/' :: ·) := by
    rw [hpath, List.reverse_append, List.reverse_cons, List.append_assoc, List.singleton_append,
      List.dropWhile_append_of_pos hname]
    simp
  refine ⟨by simp [hpath], ?_⟩
  simp only [directory, hleft]
  rw [pathString]
  cases p with
  | nil => rfl
  | cons x p => simp

theorem goUp_pathString (h : NameOk (locale.toLocal8Bit n)) (result : QString) :
    goUp ⟨result, pathString (p ++ [n])⟩ = .inl ⟨result, pathString p⟩ := by
  obtain ⟨hslash, hdirectory⟩ := directory_pathString (p := p) h
  rw [goUp, if_neg (pathString_ne_slash h), if_neg (not_not_intro hslash)]
  simp only [hdirectory]

theorem to_pathString (hp : locale.Names p) :
    locale.toLocal8Bit (pathString p) = slash :: joinPath (p.map locale.toLocal8Bit) := by
  by_cases hnil : p = []
  · rw [hnil, pathString, if_pos rfl, locale.to_slash]
    rfl
  · have hspells : locale.Spells p (p.map locale.toLocal8Bit) := ⟨hnil, rfl, List.forall_mem_map.mpr fun _ => hp.nameOk⟩
    have hpath := hspells.to_pathString []
    rwa [List.nil_append, List.flatMap_nil, Locale.to_nil, List.nil_append] at hpath

theorem constData_pathString (hp : locale.Names p) :
    constData (locale.toLocal8Bit (pathString p)) = locale.toLocal8Bit (pathString p) := by
  refine constData_eq ?_
  rw [to_pathString hp, List.mem_cons, not_or]
  exact ⟨by decide, zero_not_mem_joinPath (List.forall_mem_map.mpr fun _ => hp.nameOk)⟩

theorem pathString_injective (hp : locale.Names p) (ha : locale.Names a)
    (h : locale.toLocal8Bit (pathString p) = locale.toLocal8Bit (pathString a)) : p = a := by
  rw [to_pathString hp, to_pathString ha] at h
  have hmap := congrArg components (List.tail_eq_of_cons_eq h)
  rw [components_joinPath (List.forall_mem_map.mpr fun _ => hp.nameOk),
    components_joinPath (List.forall_mem_map.mpr fun _ => ha.nameOk)] at hmap
  exact (List.map_injective_iff.mpr (Function.LeftInverse.injective locale.from_to)) hmap

/-- From the path of the names the loop finds their nearest mount point that is not passed over. -/
theorem run_round (h : host.On locale dev) (s : MountCacher) (hardreal : Bool) {fuel : ℕ} (hp : locale.Names p)
    (hfuel : p.length < fuel) (result : QString) : ∃ a,
    Loop.run (s.round locale host hardreal) fuel ⟨result, pathString p⟩ = some (pathString a) ∧
      Nearest dev (fun b => hardreal = true ∧ s.findVirtual (pathString b) = true) p a := by
  induction fuel generalizing p result with
  | zero => exact absurd hfuel (Nat.not_lt_zero _)
  | succ fuel ih =>
    by_cases hdev : dev p = none
    · -- the file is not there any more
      obtain ⟨d, n, rfl⟩ := (List.eq_nil_or_concat' p).resolve_left (by rintro rfl; exact h.root hdev)
      obtain ⟨hd, hn⟩ := names_snoc hp
      rw [List.length_append, List.length_singleton] at hfuel
      obtain ⟨a, hrun, hnearest⟩ := ih hd (by omega) result
      refine ⟨a, ?_, hnearest.snoc fun hmounted => absurd hdev hmounted.1⟩
      have hround : s.round locale host hardreal ⟨result, pathString (d ++ [n])⟩ = .inl ⟨result, pathString d⟩ := by
        simp only [round, constData_pathString hp, h.missing _ hp hdev, goUp_pathString hn]
      rw [Loop.run_of_goes fuel hround, hrun]
    obtain ⟨c, hc, hfound, hmounted, hsame⟩ := h.found p hp hdev
    have hcdev : dev c ≠ none := hsame c List.prefix_rfl hc ▸ hdev
    by_cases hpassed : hardreal = true ∧ s.findVirtual (pathString c) = true
    swap
    · refine ⟨c, Loop.run_of_returns fuel ?_, .of_between hc hsame ⟨List.prefix_rfl, ?_, fun b hb _ _ => hb⟩⟩
      · simp only [round, constData_pathString hp, hfound, h.fromUtf8]
        rw [if_neg (by simpa using hpassed)]
      · exact hmounted.imp id fun hother => ⟨⟨hcdev, .inr hother⟩, hpassed⟩
    · have hround : s.round locale host hardreal ⟨result, pathString p⟩ = goUp ⟨pathString c, pathString c⟩ := by
        simp only [round, constData_pathString hp, hfound, h.fromUtf8]
        rw [if_pos (by simpa using hpassed)]
      rcases List.eq_nil_or_concat' c with rfl | ⟨d, n, rfl⟩
      · refine ⟨[], Loop.run_of_returns fuel (hround.trans rfl), .of_between hc hsame ?_⟩
        exact ⟨List.prefix_rfl, .inl rfl, fun b hb _ _ => hb⟩
      · obtain ⟨hd, hn⟩ := names_snoc fun x hx => hp x (hc.subset hx)
        have hlength := hc.length_le
        rw [List.length_append, List.length_singleton] at hlength
        obtain ⟨a, hrun, hnearest⟩ := ih hd (by omega) (pathString (d ++ [n]))
        refine ⟨a, ?_, .of_between hc hsame (hnearest.snoc fun _ => hpassed)⟩
        rw [Loop.run_of_goes fuel (hround.trans (goUp_pathString hn _)), hrun]

/-- A link is looked up by its directory. -/
theorem startPath_pathString (h : host.On locale dev) (hp : locale.Names p) :
    (¬ host.LinkHere locale (pathString p) → startPath locale host (pathString p) = pathString p) ∧
      (host.LinkHere locale (pathString p) → startPath locale host (pathString p) = pathString p.dropLast) := by
  rw [← h.absolutePath p hp, startPath, MountHost.LinkHere]
  constructor
  · intro hlink
    split
    · split
      · rename_i hpath _ _ _ hparent
        exact if_neg fun heq => hlink ⟨_, _, hpath, heq ▸ hparent⟩
      · rfl
    · rfl
  · rintro ⟨d, l, hpath, hparent⟩
    rw [hpath]
    simp only [hparent, if_true]

/-- A path has no fewer characters than names. -/
theorem length_le_pathString (p : List QString) : p.length ≤ (pathString p).length := by
  have hle : ∀ p : List QString, p.length ≤ (p.flatMap ('/' :: ·)).length := by
    intro p
    induction p with
    | nil => exact Nat.zero_le _
    | cons n p ih =>
      rw [List.flatMap_cons, List.length_append, List.length_cons, List.length_cons]
      omega
  rw [pathString]
  split
  · exact Nat.le_of_lt (by simp [*])
  · exact hle p

/-- The names of the path that is looked up. -/
def Way (locale : Locale) (host : MountHost) (p w : List QString) : Prop :=
  (¬ host.LinkHere locale (pathString p) ∧ w = p) ∨ (host.LinkHere locale (pathString p) ∧ w = p.dropLast)

/-- In the list that has been read from a table, virtual are the mount points of file systems with long names. -/
theorem findVirtual_updateMountPoints (locale : Locale) (s : MountCacher) (table : List LibmntFs) (a : List QString) :
    (s.updateMountPoints locale (some table)).findVirtual (pathString a) = true ↔
      LibmntFs.LongNamesAt locale table a := by
  rw [findVirtual, updateMountPoints, LibmntFs.LongNamesAt]
  simp only [List.any_eq_true, List.mem_filter, List.mem_map, decide_eq_true_eq]
  constructor
  · rintro ⟨_, ⟨⟨fs, hfs, rfl⟩, hkept⟩, htarget, hmajor⟩
    exact ⟨fs, hfs, htarget.symm, hkept.resolve_left (not_not_intro hmajor), hmajor⟩
  · rintro ⟨fs, hfs, htarget, htype, hmajor⟩
    exact ⟨_, ⟨⟨fs, hfs, rfl⟩, .inr htype⟩, htarget.symm, hmajor⟩

/-! ## What is found -/

theorem exists_findMountPointByPath (h : host.On locale dev) (s : MountCacher) (table : List LibmntFs)
    (hp : locale.Names p) {fuel : ℕ} (hfuel : p.length < fuel) : ∃ w, Way locale host p w ∧ ∀ hardreal, ∃ a,
    (s.updateMountPoints locale (some table)).findMountPointByPath locale host fuel (pathString p) hardreal =
        some (pathString a) ∧
      Nearest dev (fun b => hardreal = true ∧ LibmntFs.LongNamesAt locale table b) w a := by
  obtain ⟨w, hway, hnames, hlength, hstart⟩ : ∃ w, Way locale host p w ∧ locale.Names w ∧ w.length ≤ p.length ∧
      startPath locale host (pathString p) = pathString w := by
    obtain ⟨hplain, hlink⟩ := startPath_pathString h hp
    by_cases hhere : host.LinkHere locale (pathString p)
    · exact ⟨_, .inr ⟨hhere, rfl⟩, fun n hn => hp n (List.mem_of_mem_dropLast hn), by simp, hlink hhere⟩
    · exact ⟨_, .inl ⟨hhere, rfl⟩, hp, le_refl _, hplain hhere⟩
  refine ⟨w, hway, fun hardreal => ?_⟩
  have hrun := run_round h (s.updateMountPoints locale (some table)) hardreal hnames (by omega : w.length < fuel) []
  simp only [findVirtual_updateMountPoints] at hrun
  rwa [← hstart] at hrun

/-- After the table of mounts has been read, every path is found at the last mount point on its way where no file
system with long names is mounted, whether there still is a file or not; a link counts as its directory. The type that
a path is said to have is that of a file system mounted on the last mount point of all, and one of a real device or
with long names. -/
theorem findMountPointByPath_nearest (h : host.On locale dev) (s : MountCacher) (table : List LibmntFs)
    (hp : locale.Names p) {fuel : ℕ} (hfuel : p.length < fuel) : ∃ w a r, Way locale host p w ∧
    (s.updateMountPoints locale (some table)).findMountPointByPath locale host fuel (pathString p) true =
      some (pathString a) ∧ Nearest dev (LibmntFs.LongNamesAt locale table) w a ∧
    (s.updateMountPoints locale (some table)).findMountPointByPath locale host fuel (pathString p) false =
      some (pathString r) ∧ Nearest dev (fun _ => False) w r ∧
    ∀ type, ∃ matched,
      (s.updateMountPoints locale (some table)).pathMatchType locale host fuel (pathString p) type = some matched ∧
      (matched = true ↔ ∃ fs ∈ table, locale.fromLocal8Bit fs.target = pathString r ∧
        locale.fromLocal8Bit fs.fstype = type ∧ (major fs.devno ≠ 0 ∨ type = fuseDlnfs)) := by
  obtain ⟨w, hway, hfind⟩ := exists_findMountPointByPath h s table hp hfuel
  obtain ⟨a, ha, hnearest⟩ := hfind true
  obtain ⟨r, hr, hnearest'⟩ := hfind false
  simp only [true_and] at hnearest
  simp only [Bool.false_eq_true, false_and] at hnearest'
  refine ⟨w, a, r, hway, ha, hnearest, hr, hnearest', fun type => ⟨_, by rw [pathMatchType, hr]; rfl, ?_⟩⟩
  simp only [updateMountPoints, List.any_eq_true, List.mem_filter, List.mem_map, decide_eq_true_eq]
  constructor
  · rintro ⟨_, ⟨⟨fs, hfs, rfl⟩, hkept⟩, htarget, rfl⟩
    exact ⟨fs, hfs, htarget.symm, rfl, hkept⟩
  · rintro ⟨fs, hfs, htarget, rfl, hkept⟩
    exact ⟨_, ⟨⟨fs, hfs, rfl⟩, hkept⟩, htarget.symm, rfl⟩

/-- So the handlers of events find a file in the index of the mount point. -/
theorem below_of_nearest (h : host.On locale dev) (s : MountCacher) (table : List LibmntFs) {fileHost : FileHost}
    {m names : List QString} {q : List Bytes} (hhost : fileHost.findMountPointByPath = fun path =>
      ((s.updateMountPoints locale (some table)).findMountPointByPath locale host (path.length + 1) path
        true).getD [])
    (hroot : fileHost.convertMountpointFromRootToSysroot = false) (hspells : locale.Spells names q)
    (hnames : locale.Names (m ++ names)) (hlink : ¬ host.LinkHere locale (pathString (m ++ names)))
    (hnearest : Nearest dev (LibmntFs.LongNamesAt locale table) (m ++ names) m) :
    fileHost.Below locale m names q := by
  obtain ⟨w, hway, hfinds⟩ := exists_findMountPointByPath h s table hnames
    (Nat.lt_succ_of_le (length_le_pathString (m ++ names)))
  obtain ⟨a, hfind, ha⟩ := hfinds true
  simp only [true_and] at ha
  obtain rfl : w = m ++ names := by
    rcases hway with ⟨-, hw⟩ | ⟨hhere, -⟩
    · exact hw
    · exact absurd hhere hlink
  obtain rfl := ha.unique hnearest
  have hfound : fileHost.findMountPointByPath (pathString (a ++ names)) = pathString a := by
    rw [hhost]
    exact congrArg (Option.getD · []) hfind
  have hne : pathString a ≠ [] := by
    rw [pathString]
    split
    · simp
    · rename_i hnil
      obtain ⟨n, ns, rfl⟩ := List.exists_cons_of_ne_nil hnil
      simp
  refine ⟨hspells, fun n hn => hnames.nameOk (List.mem_append_left _ hn), by rwa [hfound], ?_⟩
  rw [IndexHost.mountPoint]
  simp only [FileHost.indexHost, hfound, hroot, Bool.false_eq_true, and_false, if_false]

open LftManager (utf8)

/-- The root, a device mounted at `/home`, and long names at `/home/u`. -/
def sampleTable : List LibmntFs :=
  [⟨0x801, utf8.toLocal8Bit "ext4".toList, [], utf8.toLocal8Bit "/".toList, [slash]⟩,
    ⟨0x802, utf8.toLocal8Bit "ext4".toList, [], utf8.toLocal8Bit "/home".toList, [slash]⟩,
    ⟨0x032, utf8.toLocal8Bit fuseDlnfs, [], utf8.toLocal8Bit "/home/u".toList, [slash]⟩]

def samplePoints : List (List QString) := [[], ["home".toList], ["home".toList, "u".toList]]

/-- There are no files but the mount points. -/
def sampleDev (p : List QString) : Option ℕ := if p ∈ samplePoints then some p.length else none

def sampleMountHost : MountHost where
  fromUtf8 := utf8.fromLocal8Bit
  absolutePath := directory
  lstat := fun _ => none
  mntGetMountpoint := fun path =>
    if samplePoints.any fun p => utf8.toLocal8Bit (pathString p) = path then some path else none

theorem sampleMountHost_on : sampleMountHost.On utf8 sampleDev := by
  have hmem : ∀ {p}, sampleDev p ≠ none ↔ p ∈ samplePoints := fun {p} => by
    rw [sampleDev]
    split <;> simp [*]
  have hnames : ∀ p ∈ samplePoints, utf8.Names p := by
    unfold Locale.Names
    decide
  refine ⟨utf8.from_to, fun p hp => ?_, by decide, fun p n h => ?_, fun p hp h => ?_, fun p hp h => ?_⟩
  · rcases List.eq_nil_or_concat' p with rfl | ⟨d, n, rfl⟩
    · decide
    · rw [List.dropLast_concat]
      exact (directory_pathString (names_snoc hp).2).2
  · rw [hmem] at h ⊢
    have hdrop : ∀ a ∈ samplePoints, a.dropLast ∈ samplePoints := by decide
    simpa using hdrop _ h
  · refine if_neg fun hpath => ?_
    obtain ⟨a, ha, heq⟩ := List.any_eq_true.mp hpath
    obtain rfl := pathString_injective (hnames a ha) hp (of_decide_eq_true heq)
    exact hmem.mpr ha h
  · have hp' := hmem.mp h
    have hother : ∀ p ∈ samplePoints, p = [] ∨ sampleDev p ≠ sampleDev p.dropLast := by decide
    refine ⟨p, List.prefix_rfl, if_pos ?_, hother p hp', fun b hb hb' => ?_⟩
    · exact List.any_eq_true.mpr ⟨p, hp', decide_eq_true rfl⟩
    · rw [hb'.eq_of_length_le hb.length_le]

theorem nearest_sample : Nearest sampleDev (LibmntFs.LongNamesAt utf8 sampleTable)
      ["home".toList, "u".toList, "f".toList] ["home".toList] ∧
    Nearest sampleDev (fun _ => False) ["home".toList, "u".toList, "f".toList] ["home".toList, "u".toList] := by
  have hway : ∀ b ∈ ["home".toList, "u".toList, "f".toList].inits, sampleDev b ≠ none →
      b <+: ["home".toList, "u".toList] := by decide
  have hlong : LibmntFs.LongNamesAt utf8 sampleTable ["home".toList, "u".toList] := by
    refine ⟨_, List.mem_of_getLast? rfl, by decide, by decide, by decide⟩
  have hplain : ¬ LibmntFs.LongNamesAt utf8 sampleTable ["home".toList] := by
    unfold LibmntFs.LongNamesAt
    decide
  constructor
  · refine ⟨by decide, .inr ⟨⟨by decide, by decide⟩, hplain⟩, fun b hb hmounted hnot => ?_⟩
    have hb' : b <+: ["home".toList] ++ ["u".toList] := hway b (List.mem_inits b _ |>.mpr hb) hmounted.1
    rcases List.prefix_concat_iff.mp hb' with rfl | h
    · exact absurd hlong hnot
    · exact h
  · refine ⟨by decide, .inr ⟨⟨by decide, by decide⟩, id⟩, fun b hb hmounted _ => ?_⟩
    exact hway b (List.mem_inits b _ |>.mpr hb) hmounted.1

/-- A file that has been removed from `/home/u`: its events are those of a directory with long names, and it is in the
index of `/home`. -/
theorem findMountPointByPath_nearest_sample :
    (updateMountPoints utf8 ⟨[]⟩ (some sampleTable)).findMountPointByPath utf8 sampleMountHost 4
      "/home/u/f".toList true = some "/home".toList ∧
    (updateMountPoints utf8 ⟨[]⟩ (some sampleTable)).pathMatchType utf8 sampleMountHost 4
      "/home/u/f".toList fuseDlnfs = some true := by
  have hnames : utf8.Names ["home".toList, "u".toList, "f".toList] := by
    unfold Locale.Names
    decide
  obtain ⟨w, a, r, hway, ha, hnearest, -, hnearest', hmatch⟩ :=
    findMountPointByPath_nearest sampleMountHost_on ⟨[]⟩ sampleTable hnames (show 3 < 4 by decide)
  obtain rfl : w = ["home".toList, "u".toList, "f".toList] := by
    rcases hway with ⟨-, hw⟩ | ⟨⟨_, _, hlink, -⟩, -⟩
    · exact hw
    · cases hlink
  obtain rfl := hnearest.unique nearest_sample.1
  obtain rfl := hnearest'.unique nearest_sample.2
  obtain ⟨matched, htype, hiff⟩ := hmatch fuseDlnfs
  refine ⟨ha, htype.trans (congrArg some (hiff.mpr ?_))⟩
  exact ⟨_, List.mem_of_getLast? rfl, by decide, by decide, by decide⟩

end MountCacher

end

end DeepinAnything.Server
