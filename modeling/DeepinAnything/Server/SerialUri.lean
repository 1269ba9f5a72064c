import Mathlib.Data.List.Nodup
import Mathlib.Data.List.Pairwise
import Mathlib.Data.List.TakeWhile
import DeepinAnything.FsBuf.Basic
import DeepinAnything.Lib.Below
import DeepinAnything.Server.EventAdaptor

/-!
# A directory as a serial URI (`lftdisktool.cpp`, `mountcacher.cpp`)

`pathToSerialUri` writes a path as the id of its block device and the directory on the device, and `fromSerialUri`
reads this back as a path under each mount of the device that has the directory. Whether a mount has it, is found
out by the characters that the two directories begin with, and what lies below the mount by counting them.
-/

namespace DeepinAnything.Server

open ByteMem Below

/-- `/` in a `QString` -/
def slash16 : UInt16 := 47

/-- `QString::right` -/
def Utf16.right (s : Utf16) (n : ℤ) : Utf16 :=
  if n < 0 ∨ s.length ≤ n then s else s.drop (s.length - n.toNat)

/-! ## The mount table -/

/-- `MountPoint`, as far as it is read here. -/
structure MountPoint where
  mountTarget : Utf16
  mountRoot : Utf16
  realDevice : Utf16

/-- A `DBlockDevice`. The mount points end with a zero. -/
structure BlockDevice where
  id : Utf16
  isLoopDevice : Bool
  mountPoints : List Bytes
deriving DecidableEq

/-- What is asked of Qt, of the file system, of `libmount` and of `udisks`, and the list that `MountCacher` has read.
`lstat` tells whether a path is a symbolic link, and its device. -/
structure DiskEnv where
  toLocal8Bit : Utf16 → Bytes
  fromLocal8Bit : Bytes → Utf16
  fromUtf8 : Bytes → Utf16
  absolutePath : Utf16 → Utf16
  lstat : Bytes → Option (Bool × ℕ)
  mntGetMountpoint : Bytes → Option Bytes
  mountPointList : List MountPoint
  createBlockPartitionByMountPoint : Bytes → Option BlockDevice
  blockDevices : List BlockDevice

namespace DiskEnv

variable (env : DiskEnv)

/-- The path that `findMountPointByPath` starts at: for a symbolic link on the device of its directory, this
directory. -/
def resultPath (path : Utf16) : Utf16 :=
  match env.lstat (env.toLocal8Bit path) with
  | some (true, dev) =>
    match env.lstat (env.toLocal8Bit (env.absolutePath path)) with
    | some (_, parentDev) => if dev = parentDev then env.absolutePath path else path
    | none => path
  | _ => path

/-- A turn of the loop of `findMountPointByPath`, without `hardreal`; `above` is what the next turns find. -/
def askMountPoint (resultPath above : Utf16) : Utf16 :=
  match env.mntGetMountpoint (env.toLocal8Bit resultPath) with
  | some mountPoint => env.fromUtf8 mountPoint
  | none => if resultPath = [slash16] then resultPath else above

/-- The turns behind the first one, over the path read from its end. -/
def climb : Utf16 → Utf16
  | [] => []
  | c :: up =>
    if c = slash16 then env.askMountPoint (if up = [] then [slash16] else up.reverse) (climb up) else climb up

def findMountPointByPath (path : Utf16) : Utf16 :=
  env.askMountPoint (env.resultPath path) (env.climb (env.resultPath path).reverse)

def getDeviceByPoint (point : Utf16) : Utf16 :=
  match env.mountPointList.find? (·.mountTarget = point) with
  | some info => info.realDevice
  | none => []

/-- The root that `getRootsByPoints` puts down for a point: that of the last entry with this target. -/
def rootOfPoint (point : Bytes) : Option Utf16 :=
  let target := env.fromLocal8Bit (point.takeWhile (· ≠ 0))
  (env.mountPointList.filter (·.mountTarget = target)).getLast?.map (·.mountRoot)

/-- `getRootsByPoints`; the map as a list of its entries. -/
def getRootsByPoints (pointList : List Bytes) : List (Bytes × Utf16) :=
  pointList.filterMap fun point => (env.rootOfPoint point).map (point, ·)

/-! ## The URI -/

/-- `serial:` -/
def serial : Bytes := [115, 101, 114, 105, 97, 108, 58]

def ignoreDevice (device : Utf16) : Bool :=
  !(Utf16.ofString "/dev/").isPrefixOf device || (Utf16.ofString "/dev/loop").isPrefixOf device ||
    device = Utf16.ofString "/dev/fuse"

/-- `mount_root_path` of `pathToSerialUri` -/
def mountRootPath (mountPoint : Utf16) : Bytes :=
  let root := match env.getRootsByPoints [env.toLocal8Bit mountPoint] with
    | (_, root) :: _ => env.toLocal8Bit root
    | [] => []
  if root = [] then [slash] else root

/-- What stands behind the id in the URI of a path on a mount. -/
def uriDir (path mountPoint : Utf16) : Bytes :=
  env.mountRootPath mountPoint ++ env.toLocal8Bit (path.right (path.length - mountPoint.length))

/-- `pathToSerialUri` -/
def pathToSerialUri (path : Utf16) : Bytes :=
  let mountPoint := env.findMountPointByPath path
  if mountPoint = [] then []
  else if ignoreDevice (env.getDeviceByPoint mountPoint) then []
  else
    match env.createBlockPartitionByMountPoint (env.toLocal8Bit path ++ [0]) with
    | none => []
    | some blockObj =>
      if blockObj.isLoopDevice then []
      else if blockObj.id = [] then []
      else serial ++ env.toLocal8Bit blockObj.id ++ env.uriDir path mountPoint

/-- `path` of `fromSerialUri`: from the first `/` behind `serial:`. -/
def uriPath (uri : Bytes) : Bytes := (uri.drop 7).dropWhile (· ≠ slash)

/-- A path below a mount point. -/
def placeUnder (mountPoint newPath : Bytes) : Bytes :=
  if newPath = [] then mountPoint
  else if mountPoint.getLast? = some slash then mountPoint ++ newPath
  else mountPoint ++ slash :: newPath

/-- A turn of the loop of `fromSerialUri`: the path under a mount point, if it gives one. -/
def mountPath (mountPointInfos : List (Bytes × Utf16)) (path mountPoint : Bytes) : Option Bytes :=
  let root := (mountPointInfos.lookup mountPoint).getD []
  if root = [] then some (placeUnder mountPoint.dropLast path)
  else if (env.toLocal8Bit root).isPrefixOf path then
    some (placeUnder mountPoint.dropLast (path.drop root.length))
  else none

/-- `fromSerialUri` -/
def fromSerialUri (uri : Bytes) : List Bytes :=
  if !serial.isPrefixOf uri then []
  else if slash ∉ uri.drop 7 then []
  else
    let blockId := env.fromLocal8Bit ((uri.drop 7).takeWhile (· ≠ slash))
    if blockId = [] then []
    else
      match env.blockDevices.find? (·.id = blockId) with
      | none => []
      | some blockObj =>
        let mountPointInfos := env.getRootsByPoints blockObj.mountPoints
        blockObj.mountPoints.filterMap (env.mountPath mountPointInfos (uriPath uri))

end DiskEnv

/-! ## The mounts of a device -/

/-- A mount of a device: where it is, and the directory of the device that it shows. -/
structure DeviceMount where
  target : Bytes
  root : Utf16
deriving DecidableEq

/-- The mount point as `udisks` writes it. -/
def DeviceMount.point (m : DeviceMount) : Bytes := m.target ++ [0]

/-- `udisks` and `MountCacher` report a device and its mounts, and `path` is the mount point of one of them. -/
structure Reports (env : DiskEnv) (dev : BlockDevice) (mounts : List DeviceMount) (here : DeviceMount) (path : Utf16) :
    Prop where
  mem : here ∈ mounts
  path_bytes : env.toLocal8Bit path = here.target
  mountPoints : dev.mountPoints = mounts.map DeviceMount.point
  nodup : (mounts.map DeviceMount.target).Nodup
  target_ne_nil : ∀ m ∈ mounts, m.target ≠ []
  zero_not_mem : ∀ m ∈ mounts, 0 ∉ m.target
  canonical : here.target = [slash] ∨ here.target.getLast? ≠ some slash
  root : ∀ m ∈ mounts, env.rootOfPoint m.target = some m.root
  absolute : ∀ info ∈ env.mountPointList, info.mountRoot ≠ [] ∧ (env.toLocal8Bit info.mountRoot).head? = some slash
  length_le : ∀ m ∈ mounts, m.root.length ≤ (env.toLocal8Bit m.root).length
  by_mount : env.createBlockPartitionByMountPoint here.point = some dev
  by_id : env.blockDevices.find? (·.id = dev.id) = some dev
  id_ne_nil : dev.id ≠ []
  id_bytes : env.fromLocal8Bit (env.toLocal8Bit dev.id) = dev.id
  slash_not_mem : slash ∉ env.toLocal8Bit dev.id

/-- What a turn of the loop of `fromSerialUri` gives for a mount. -/
def DeviceMount.contribution (env : DiskEnv) (mounts : List DeviceMount) (dir : Bytes) (m : DeviceMount) :
    Option Bytes :=
  env.mountPath (env.getRootsByPoints (mounts.map DeviceMount.point)) dir m.point

/-- The path `p` leads to the directory `dir` of the device, under the mount `m`: behind the names of the mount point
it has those from the root of the mount to the directory. -/
def DeviceMount.Leads (env : DiskEnv) (m : DeviceMount) (dir : Utf16) (p : Bytes) : Prop :=
  ∃ rel, names slash (env.toLocal8Bit dir) = names slash (env.toLocal8Bit m.root) ++ rel ∧
    names slash p = names slash m.target ++ rel

/-- What the URI of a mount point is read back as: the mount point, and no path twice; the mounts whose root is the
directory or lies over it give one path each, which leads to the directory, and the others none. -/
structure SerialUriRight (env : DiskEnv) (mounts : List DeviceMount) (here : DeviceMount) (path : Utf16) : Prop where
  self : here.target ∈ env.fromSerialUri (env.pathToSerialUri path)
  nodup : (env.fromSerialUri (env.pathToSerialUri path)).Nodup
  contributions : env.fromSerialUri (env.pathToSerialUri path) = mounts.filterMap
    (DeviceMount.contribution env mounts (DiskEnv.uriPath (env.pathToSerialUri path)))
  contributes : ∀ m ∈ mounts,
    (m.contribution env mounts (DiskEnv.uriPath (env.pathToSerialUri path))).isSome ↔
      Contains slash (env.toLocal8Bit m.root) (env.toLocal8Bit here.root)
  leads : ∀ m ∈ mounts, ∀ p,
    m.contribution env mounts (DiskEnv.uriPath (env.pathToSerialUri path)) = some p → m.Leads env here.root p

/-! ## When the URI is right -/

section Fits

variable (env : DiskEnv) (mounts : List DeviceMount) (here : DeviceMount) (path : Utf16)

/-- The path under a mount that the code makes of the bytes of a directory. -/
def DeviceMount.place (m : DeviceMount) (dir : Bytes) : Bytes := DiskEnv.placeUnder m.target (dir.drop m.root.length)

/-- The tool takes the device of the mount point. -/
def Served (dev : BlockDevice) : Prop :=
  env.findMountPointByPath path ≠ [] ∧
    DiskEnv.ignoreDevice (env.getDeviceByPoint (env.findMountPointByPath path)) = false ∧ dev.isLoopDevice = false

/-- The mount that `MountCacher` finds over the path shows the directory at the path; the directory has as many bytes
as characters; the roots that it begins with are the directory or over it, and have only separators behind as many
bytes as they have characters; and these mounts put the directory at different paths. -/
structure SerialUriFits : Prop where
  dir : env.uriDir path (env.findMountPointByPath path) = env.toLocal8Bit here.root
  length : here.root.length = (env.toLocal8Bit here.root).length
  seam : ∀ m ∈ mounts, env.toLocal8Bit m.root <+: env.toLocal8Bit here.root →
    Contains slash (env.toLocal8Bit m.root) (env.toLocal8Bit here.root)
  separators : ∀ m ∈ mounts, env.toLocal8Bit m.root <+: env.toLocal8Bit here.root →
    ∀ c ∈ (env.toLocal8Bit m.root).drop m.root.length, c = slash
  apart : ∀ m ∈ mounts, ∀ m' ∈ mounts, env.toLocal8Bit m.root <+: env.toLocal8Bit here.root →
    env.toLocal8Bit m'.root <+: env.toLocal8Bit here.root →
    m.place (env.toLocal8Bit here.root) = m'.place (env.toLocal8Bit here.root) → m = m'

end Fits

/-! ## The two functions -/

namespace DiskEnv

variable {env : DiskEnv}

theorem lookup_getRootsByPoints {points : List Bytes} {point : Bytes} (hmem : point ∈ points) :
    (env.getRootsByPoints points).lookup point = env.rootOfPoint point := by
  induction points with
  | nil => simp at hmem
  | cons p points ih =>
    have hhead : env.getRootsByPoints (p :: points) =
        (env.rootOfPoint p).toList.map (p, ·) ++ env.getRootsByPoints points := by
      rw [getRootsByPoints, List.filterMap_cons]
      cases env.rootOfPoint p <;> rfl
    rw [hhead]
    by_cases hp : point = p
    · subst hp
      cases hroot : env.rootOfPoint point with
      | some root => simp
      | none =>
        by_cases hrest : point ∈ points
        · simpa [hroot] using ih hrest
        · have hnone : ∀ x ∈ env.getRootsByPoints points, x.1 ≠ point := by
            intro x hx
            obtain ⟨q, hq, hqx⟩ := List.mem_filterMap.mp hx
            obtain ⟨root, -, rfl⟩ := Option.map_eq_some_iff.mp hqx
            exact fun heq => hrest (heq ▸ hq)
          simpa [List.lookup_eq_none_iff] using fun a b hab => (hnone (a, b) hab).symm
    · have hrest := ih ((List.mem_cons.mp hmem).resolve_left hp)
      cases env.rootOfPoint p with
      | none => simpa using hrest
      | some root => simpa [List.lookup_cons, beq_eq_false_iff_ne.mpr hp] using hrest

theorem names_placeUnder (mountPoint newPath : Bytes) :
    names slash (placeUnder mountPoint newPath) = names slash mountPoint ++ names slash newPath := by
  rw [placeUnder]
  split
  · rename_i hnil
    rw [hnil, names_nil, List.append_nil]
  · split
    · rename_i hlast
      exact names_of_contains (contains_append.mpr (.inr (.inl hlast)))
    · exact names_append_cons mountPoint newPath

/-- What is put below a mount point ends as it does itself. -/
theorem getLast?_placeUnder {mountPoint newPath : Bytes} (hne : newPath ≠ []) :
    (placeUnder mountPoint newPath).getLast? = newPath.getLast? := by
  rw [placeUnder, if_neg hne]
  split
  · exact List.getLast?_append_of_ne_nil _ hne
  · rw [List.getLast?_append_of_ne_nil _ (by simp), List.getLast?_cons_of_ne_nil hne]

theorem length_placeUnder {mountPoint newPath : Bytes} (hpoint : mountPoint ≠ []) (hne : newPath ≠ []) :
    1 < (placeUnder mountPoint newPath).length := by
  have hpoint := List.length_pos_iff.mpr hpoint
  have hne' := List.length_pos_iff.mpr hne
  rw [placeUnder, if_neg hne]
  split
  · rw [List.length_append]
    omega
  · rw [List.length_append, List.length_cons]
    omega

end DiskEnv

/-- Two members that give the same to a list without repetitions are the same. -/
theorem eq_of_nodup_filterMap {α β : Type*} {f : α → Option β} {l : List α} (hnodup : (l.filterMap f).Nodup)
    {a a' : α} {b : β} (ha : a ∈ l) (ha' : a' ∈ l) (hb : f a = some b) (hb' : f a' = some b) : a = a' := by
  by_contra hne
  have : Std.Symm fun x y => ¬ (f x = some b ∧ f y = some b) := ⟨fun x y hxy hyx => hxy hyx.symm⟩
  have hpair : l.Pairwise fun x y => ¬ (f x = some b ∧ f y = some b) :=
    (List.pairwise_filterMap.mp hnodup).imp fun hxy hb => hxy b hb.1 b hb.2 rfl
  exact hpair.forall ha ha' hne ⟨hb, hb'⟩

namespace Reports

open DiskEnv

variable {env : DiskEnv} {dev : BlockDevice} {mounts : List DeviceMount} {here : DeviceMount} {path : Utf16}

theorem root_absolute (h : Reports env dev mounts here path) {m : DeviceMount} (hm : m ∈ mounts) :
    m.root ≠ [] ∧ (env.toLocal8Bit m.root).head? = some slash := by
  have hroot := h.root m hm
  obtain ⟨info, hinfo, heq⟩ := Option.map_eq_some_iff.mp hroot
  rw [← heq]
  exact h.absolute info (List.mem_of_mem_filter (List.mem_of_getLast? hinfo))

theorem mountRootPath_head (h : Reports env dev mounts here path) (mountPoint : Utf16) :
    (env.mountRootPath mountPoint).head? = some slash := by
  rw [mountRootPath, getRootsByPoints, List.filterMap_cons, List.filterMap_nil]
  cases hroot : env.rootOfPoint (env.toLocal8Bit mountPoint) with
  | none => rfl
  | some root =>
    obtain ⟨info, hinfo, rfl⟩ := Option.map_eq_some_iff.mp hroot
    have hhead := (h.absolute info (List.mem_of_mem_filter (List.mem_of_getLast? hinfo))).2
    simp only [Option.map_some]
    rwa [if_neg (by rintro hnil; simp [hnil] at hhead)]

/-- What is made of a mount of the device. -/
theorem contribution_eq (h : Reports env dev mounts here path) {m : DeviceMount} (hm : m ∈ mounts) (dir : Bytes) :
    m.contribution env mounts dir =
      if env.toLocal8Bit m.root <+: dir then some (m.place dir) else none := by
  have hzero : (m.point.takeWhile (· ≠ 0)) = m.target.takeWhile (· ≠ 0) := by
    have hall : ∀ c ∈ m.target, (decide (c ≠ 0)) = true := fun c hc =>
      decide_eq_true (ne_of_mem_of_not_mem hc (h.zero_not_mem m hm))
    rw [DeviceMount.point, List.takeWhile_append_of_pos hall, List.takeWhile_eq_self_iff.mpr hall]
    simp
  have hroot : env.rootOfPoint m.point = some m.root := by
    rw [← h.root m hm, rootOfPoint, rootOfPoint, hzero]
  rw [DeviceMount.contribution, mountPath, lookup_getRootsByPoints (List.mem_map_of_mem hm), hroot, Option.getD_some,
    if_neg (h.root_absolute hm).1, DeviceMount.point, List.dropLast_concat]
  simp only [List.isPrefixOf_iff_prefix]
  rfl

theorem fromSerialUri_nil : env.fromSerialUri [] = [] := rfl

/-- Without service there is no URI. -/
theorem pathToSerialUri_not_served (h : Reports env dev mounts here path) (hserved : ¬ Served env path dev) :
    env.pathToSerialUri path = [] := by
  rw [pathToSerialUri, h.path_bytes]
  simp only [show env.createBlockPartitionByMountPoint (here.target ++ [0]) = some dev from h.by_mount]
  rw [Served] at hserved
  split_ifs with hpoint hdevice hloop hid
  all_goals first | rfl | skip
  exact absurd ⟨hpoint, by simpa using hdevice, by simpa using hloop⟩ hserved

theorem pathToSerialUri_served (h : Reports env dev mounts here path) (hserved : Served env path dev) :
    env.pathToSerialUri path =
      serial ++ env.toLocal8Bit dev.id ++ env.uriDir path (env.findMountPointByPath path) := by
  obtain ⟨hpoint, hdevice, hloop⟩ := hserved
  rw [pathToSerialUri, h.path_bytes]
  simp [show env.createBlockPartitionByMountPoint (here.target ++ [0]) = some dev from h.by_mount, hpoint, hdevice,
    hloop, h.id_ne_nil]

theorem takeWhile_slash (h : Reports env dev mounts here path) {dir : Bytes} (hdir : dir.head? = some slash) :
    (env.toLocal8Bit dev.id ++ dir).takeWhile (· ≠ slash) = env.toLocal8Bit dev.id ∧
      (env.toLocal8Bit dev.id ++ dir).dropWhile (· ≠ slash) = dir := by
  obtain ⟨rest, rfl⟩ := List.head?_eq_some_iff.mp hdir
  have hall : ∀ c ∈ env.toLocal8Bit dev.id, (decide (c ≠ slash)) = true := fun c hc =>
    decide_eq_true (ne_of_mem_of_not_mem hc h.slash_not_mem)
  rw [List.takeWhile_append_of_pos hall, List.dropWhile_append_of_pos hall]
  simp

/-- Reading back the URI of a directory: all mounts are asked. -/
theorem fromSerialUri_eq (h : Reports env dev mounts here path) {dir : Bytes} (hdir : dir.head? = some slash) :
    uriPath (serial ++ env.toLocal8Bit dev.id ++ dir) = dir ∧
      env.fromSerialUri (serial ++ env.toLocal8Bit dev.id ++ dir) =
        mounts.filterMap (DeviceMount.contribution env mounts dir) := by
  obtain ⟨htake, hdrop⟩ := h.takeWhile_slash hdir
  have hseven : (serial ++ env.toLocal8Bit dev.id ++ dir).drop 7 = env.toLocal8Bit dev.id ++ dir := by
    rw [List.append_assoc]
    rfl
  have hpath : uriPath (serial ++ env.toLocal8Bit dev.id ++ dir) = dir := by
    rw [uriPath, hseven, hdrop]
  have hbegins : serial.isPrefixOf (serial ++ env.toLocal8Bit dev.id ++ dir) = true := by
    rw [List.isPrefixOf_iff_prefix, List.append_assoc]
    exact List.prefix_append _ _
  have hmem : slash ∈ env.toLocal8Bit dev.id ++ dir :=
    List.mem_append_right _ (List.mem_of_mem_head? hdir)
  refine ⟨hpath, ?_⟩
  rw [fromSerialUri, hbegins, hseven, htake, h.id_bytes, hpath]
  simp only [Bool.not_true, Bool.false_eq_true, if_false, hmem, not_true_eq_false, h.id_ne_nil, h.by_id,
    h.mountPoints, List.filterMap_map]
  rfl

theorem uriDir_head (h : Reports env dev mounts here path) (mountPoint : Utf16) :
    (env.uriDir path mountPoint).head? = some slash := by
  obtain ⟨rest, hrest⟩ := List.head?_eq_some_iff.mp (h.mountRootPath_head mountPoint)
  rw [uriDir, hrest]
  rfl

/-- Under a mount that has the directory, its path leads there exactly if only separators are left of the root. -/
theorem leads_iff (h : Reports env dev mounts here path) {m : DeviceMount} (hm : m ∈ mounts)
    (hc : Contains slash (env.toLocal8Bit m.root) (env.toLocal8Bit here.root)) :
    m.Leads env here.root (m.place (env.toLocal8Bit here.root)) ↔
      ∀ c ∈ (env.toLocal8Bit m.root).drop m.root.length, c = slash := by
  obtain ⟨rest, hrest⟩ := hc.1
  rw [← hrest] at hc
  rw [DeviceMount.Leads, DeviceMount.place, names_placeUnder, ← hrest, names_of_contains hc,
    names_drop_of_contains (h.length_le m hm) hc, ← names_eq_nil_iff]
  constructor
  · rintro ⟨rel, hrel, hnames⟩
    rw [← List.append_cancel_left hrel] at hnames
    exact List.append_left_eq_self.mp (List.append_cancel_left hnames)
  · rintro hnil
    exact ⟨names slash rest, rfl, by rw [hnil, List.nil_append]⟩

theorem eq_of_target (h : Reports env dev mounts here path) {m m' : DeviceMount} (hm : m ∈ mounts)
    (hm' : m' ∈ mounts) (heq : m.target = m'.target) : m = m' :=
  List.inj_on_of_nodup_map h.nodup hm hm' heq

/-- When the mount point itself is read back, nothing is left of the directory below it. -/
theorem drop_eq_nil (h : Reports env dev mounts here path) {dir : Bytes} {m : DeviceMount} (hm : m ∈ mounts)
    (hplace : m.place dir = here.target) (hseparators : ∀ c ∈ dir.drop here.root.length, c = slash) :
    dir.drop here.root.length = [] := by
  by_contra hne
  have hlast : dir.getLast? = some slash := by
    have hmem := List.getLast_mem hne
    rw [← hseparators _ hmem, List.getLast_drop hne, List.getLast?_eq_getLast_of_ne_nil]
  by_cases hrest : dir.drop m.root.length = []
  · rw [DeviceMount.place, placeUnder, if_pos hrest] at hplace
    exact hne (h.eq_of_target hm h.mem hplace ▸ hrest)
  · have hlast' : here.target.getLast? = some slash := by
      rw [← hplace, DeviceMount.place, getLast?_placeUnder hrest, List.getLast?_drop, if_neg, hlast]
      simpa using hrest
    have hlength := length_placeUnder (h.target_ne_nil m hm) hrest
    rcases h.canonical with heq | hcanonical
    · rw [show placeUnder m.target (dir.drop m.root.length) = here.target from hplace, heq] at hlength
      simp at hlength
    · exact hcanonical hlast'

theorem serialUriRight_of_fits (h : Reports env dev mounts here path) (hserved : Served env path dev)
    (hfits : SerialUriFits env mounts here path) : SerialUriRight env mounts here path := by
  obtain ⟨huriPath, hread⟩ := h.fromSerialUri_eq (h.uriDir_head (env.findMountPointByPath path))
  rw [← h.pathToSerialUri_served hserved] at huriPath hread
  have heach : ∀ m ∈ mounts, m.contribution env mounts (env.toLocal8Bit here.root) =
      if env.toLocal8Bit m.root <+: env.toLocal8Bit here.root then some (m.place (env.toLocal8Bit here.root))
      else none := fun m hm => h.contribution_eq hm _
  rw [hfits.dir] at huriPath hread
  refine ⟨?_, ?_, ?_, ?_, ?_⟩
  · rw [hread]
    refine List.mem_filterMap.mpr ⟨here, h.mem, ?_⟩
    rw [heach here h.mem, if_pos List.prefix_rfl, DeviceMount.place, hfits.length, List.drop_length]
    rfl
  · rw [hread, List.Nodup, List.pairwise_filterMap]
    refine h.nodup.of_map.imp_of_mem fun {m m'} hm hm' hne p hp p' hp' heq => hne ?_
    rw [heach m hm, Option.ite_none_right_eq_some] at hp
    rw [heach m' hm', Option.ite_none_right_eq_some] at hp'
    refine hfits.apart m hm m' hm' hp.1 hp'.1 ?_
    exact Option.some.inj (hp.2.trans (heq ▸ hp'.2.symm))
  · rw [huriPath, hread]
  · intro m hm
    rw [huriPath, heach m hm]
    refine ⟨fun hsome => ?_, fun hc => ?_⟩
    · split at hsome
      · rename_i hbegins
        exact hfits.seam m hm hbegins
      · simp at hsome
    · rw [if_pos hc.1]
      rfl
  · intro m hm p hp
    rw [huriPath, heach m hm, Option.ite_none_right_eq_some] at hp
    obtain ⟨hbegins, hplace⟩ := hp
    obtain rfl := Option.some.inj hplace
    exact (h.leads_iff hm (hfits.seam m hm hbegins)).mpr (hfits.separators m hm hbegins)

theorem served_of_right (h : Reports env dev mounts here path) (hright : SerialUriRight env mounts here path) :
    Served env path dev := by
  by_contra hserved
  have hself := hright.self
  rw [h.pathToSerialUri_not_served hserved, fromSerialUri_nil] at hself
  exact absurd hself List.not_mem_nil

theorem fits_of_right (h : Reports env dev mounts here path) (hright : SerialUriRight env mounts here path) :
    SerialUriFits env mounts here path := by
  have hserved := h.served_of_right hright
  obtain ⟨huriPath, hread⟩ := h.fromSerialUri_eq (h.uriDir_head (env.findMountPointByPath path))
  rw [← h.pathToSerialUri_served hserved] at huriPath hread
  obtain ⟨hself, hnodup, -, hcontributes, hleads⟩ := hright
  rw [huriPath] at hcontributes hleads
  rw [hread] at hself hnodup
  generalize hdir : env.uriDir path (env.findMountPointByPath path) = dir at hcontributes hleads hself hnodup
  -- the mount itself gives a path, so the URI begins with its root, and only separators follow
  have hhere : env.toLocal8Bit here.root <+: dir := by
    have hsome := (hcontributes here h.mem).mpr (Contains.refl _)
    rw [h.contribution_eq h.mem] at hsome
    by_contra hnot
    simp [hnot] at hsome
  have hseparators : ∀ c ∈ dir.drop here.root.length, c = slash := by
    obtain ⟨rel, hrel, hnames⟩ := hleads here h.mem _ (by rw [h.contribution_eq h.mem, if_pos hhere])
    rw [DeviceMount.place, names_placeUnder, List.self_eq_append_right.mp hrel] at hnames
    exact names_eq_nil_iff.mp (List.append_cancel_left hnames)
  have hnil : dir.drop here.root.length = [] := by
    obtain ⟨m, hm, hplace⟩ := List.mem_filterMap.mp hself
    rw [h.contribution_eq hm, Option.ite_none_right_eq_some] at hplace
    exact h.drop_eq_nil hm (Option.some.inj hplace.2) hseparators
  have hlength := h.length_le here h.mem
  have hle := List.drop_eq_nil_iff.mp hnil
  have heq : env.toLocal8Bit here.root = dir := hhere.eq_of_length_le (by omega)
  subst heq
  have hseam : ∀ m ∈ mounts, env.toLocal8Bit m.root <+: env.toLocal8Bit here.root →
      Contains slash (env.toLocal8Bit m.root) (env.toLocal8Bit here.root) := by
    intro m hm hbegins
    refine (hcontributes m hm).mp ?_
    rw [h.contribution_eq hm, if_pos hbegins]
    rfl
  refine ⟨hdir, by omega, hseam, fun m hm hbegins => ?_, fun m hm m' hm' hbegins hbegins' hplace => ?_⟩
  · refine (h.leads_iff hm (hseam m hm hbegins)).mp (hleads m hm _ ?_)
    rw [h.contribution_eq hm, if_pos hbegins]
  · have heq : m.contribution env mounts (env.toLocal8Bit here.root) =
        some (m.place (env.toLocal8Bit here.root)) := by rw [h.contribution_eq hm, if_pos hbegins]
    refine eq_of_nodup_filterMap hnodup hm hm' heq ?_
    rw [h.contribution_eq hm', if_pos hbegins', hplace]

end Reports

/-- The URI of a mount point is read back rightly exactly if its device is served and the mounts fit. -/
theorem serialUriRight_iff {env : DiskEnv} {dev : BlockDevice} {mounts : List DeviceMount} {here : DeviceMount}
    {path : Utf16} (h : Reports env dev mounts here path) :
    SerialUriRight env mounts here path ↔ Served env path dev ∧ SerialUriFits env mounts here path :=
  ⟨fun hright => ⟨h.served_of_right hright, h.fits_of_right hright⟩,
    fun hfits => h.serialUriRight_of_fits hfits.1 hfits.2⟩

/-- `/home` -/
def homePath : Bytes := [47, 104, 111, 109, 101]

/-- A device with two mounts, the directory `/@` at `/` and another one at `/home`. -/
def homeDevice : BlockDevice := ⟨Utf16.ofString "by-uuid-1", false, [[47, 0], homePath ++ [0]]⟩

def homeMounts (root : Utf16) : List DeviceMount := [⟨[47], Utf16.ofString "/@"⟩, ⟨homePath, root⟩]

/-- What is reported of the two mounts, in a locale with one byte a character. -/
def homeEnv (root : Utf16) : DiskEnv where
  toLocal8Bit s := s.map UInt16.toUInt8
  fromLocal8Bit s := s.map UInt8.toUInt16
  fromUtf8 s := s.map UInt8.toUInt16
  absolutePath := id
  lstat _ := some (false, 0)
  mntGetMountpoint := some
  mountPointList := [⟨Utf16.ofString "/", Utf16.ofString "/@", Utf16.ofString "/dev/sda1"⟩,
    ⟨Utf16.ofString "/home", root, Utf16.ofString "/dev/sda1"⟩]
  createBlockPartitionByMountPoint _ := some homeDevice
  blockDevices := [homeDevice]

theorem reports_home {root : Utf16} (hroot : root ∈ [Utf16.ofString "/@home", Utf16.ofString "/@/home"]) :
    Reports (homeEnv root) homeDevice (homeMounts root) ⟨homePath, root⟩ (Utf16.ofString "/home") := by
  have hmem : root = Utf16.ofString "/@home" ∨ root = Utf16.ofString "/@/home" := by simpa using hroot
  rcases hmem with rfl | rfl
  all_goals
    refine ⟨by simp [homeMounts], by decide, by decide, by decide, ?_, ?_, by decide, ?_, ?_, ?_, rfl, by decide,
      by decide, by decide, by decide⟩
    all_goals decide

theorem serialUriRight_home : SerialUriRight (homeEnv (Utf16.ofString "/@/home"))
    (homeMounts (Utf16.ofString "/@/home")) ⟨homePath, Utf16.ofString "/@/home"⟩ (Utf16.ofString "/home") := by
  refine (serialUriRight_iff (reports_home (by simp))).mpr
    ⟨⟨by decide, by decide, rfl⟩, by decide, by decide, ?_, ?_, ?_⟩
  · decide +kernel
  · decide +kernel
  · decide +kernel

/-- The name `@` of the one directory begins the name `@home` of the other: `/home` is read back twice. -/
theorem not_serialUriRight : Reports (homeEnv (Utf16.ofString "/@home")) homeDevice
      (homeMounts (Utf16.ofString "/@home")) ⟨homePath, Utf16.ofString "/@home"⟩ (Utf16.ofString "/home") ∧
    (homeEnv (Utf16.ofString "/@home")).fromSerialUri
      ((homeEnv (Utf16.ofString "/@home")).pathToSerialUri (Utf16.ofString "/home")) = [homePath, homePath] ∧
    ¬ SerialUriRight (homeEnv (Utf16.ofString "/@home")) (homeMounts (Utf16.ofString "/@home"))
      ⟨homePath, Utf16.ofString "/@home"⟩ (Utf16.ofString "/home") := by
  have hread : (homeEnv (Utf16.ofString "/@home")).fromSerialUri
      ((homeEnv (Utf16.ofString "/@home")).pathToSerialUri (Utf16.ofString "/home")) = [homePath, homePath] := by
    decide
  refine ⟨reports_home (by simp), hread, fun hright => ?_⟩
  have hnodup := hright.nodup
  rw [hread] at hnodup
  exact absurd hnodup (by decide)

end DeepinAnything.Server
