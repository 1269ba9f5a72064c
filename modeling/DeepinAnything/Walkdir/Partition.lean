import DeepinAnything.Lib.Below
import DeepinAnything.Walkdir.Build

/-!
# The partition of a walk (`walkdir.c`)

`build_fstree` stays on one partition: it selects the one that the root path is on and leaves out what is mounted
below it. Both tests compare strings from their start and rely on the order of the table to mean nesting; they do
not look whether the name in the path ends where the mount point does.
-/

namespace DeepinAnything

open ByteMem Below

/-! ## The table -/

def partNameMax : ℕ := 256

def fsTypeMax : ℕ := 32

/-- `partition` -/
structure Partition where
  dev : Bytes
  mountPoint : Bytes
  fsType : Bytes
  major : UInt8
  minor : UInt8
deriving DecidableEq, Repr

/-- A line of `/proc/mounts`, as far as it is read. -/
structure MountLine where
  dev : Bytes
  mp : Bytes
  fsType : Bytes

/-- `mounted_at` -/
def mountedAt (mp root : Bytes) : Bool :=
  mp = root || (mp.length > root.length && root.isPrefixOf mp && mp[root.length]? = some slash)

/-- `/sys` -/
def sysPath : Bytes := [47, 115, 121, 115]

/-- `/proc` -/
def procPath : Bytes := [47, 112, 114, 111, 99]

/-- `/dev` -/
def devPath : Bytes := [47, 100, 101, 118]

/-- `/run` -/
def runPath : Bytes := [47, 114, 117, 110]

/-- `tmpfs` -/
def tmpfs : Bytes := [116, 109, 112, 102, 115]

/-- `fuse.dlnfs` -/
def fuseDlnfs : Bytes := [102, 117, 115, 101, 46, 100, 108, 110, 102, 115]

def isSpecialMountPoint (mp fsType : Bytes) : Bool :=
  (mountedAt mp sysPath || mountedAt mp procPath) ||
    ((mountedAt mp devPath || mountedAt mp runPath) && fsType ≠ tmpfs)

def isCustomType (fsType : Bytes) : Bool := [fuseDlnfs].any (· = fsType)

/-- `is_same_mount`: the table with the longer mount point of the two, if one of the device ends with the other. -/
def isSameMount (major minor : UInt8) (newMp : Bytes) : List Partition → Option (List Partition)
  | [] => none
  | p :: ps =>
    if p.major = major ∧ p.minor = minor then
      if p.mountPoint.isSuffixOf newMp then some ({ p with mountPoint := newMp } :: ps)
      else if newMp.isSuffixOf p.mountPoint then some (p :: ps)
      else (isSameMount major minor newMp ps).map (p :: ·)
    else (isSameMount major minor newMp ps).map (p :: ·)

/-- The loop of `get_partitions` over `/proc/mounts`; `stat` gives the numbers of a mount point's device, cut to
a `char`. -/
def readPartitions (stat : Bytes → Option (UInt8 × UInt8)) : List MountLine → List Partition → List Partition
  | [], parts => parts
  | m :: ms, parts =>
    if m.dev.length ≥ partNameMax ∨ m.mp.length ≥ partNameMax ∨ m.fsType.length ≥ fsTypeMax then
      readPartitions stat ms parts
    else if isSpecialMountPoint m.mp m.fsType then readPartitions stat ms parts
    else
      match stat m.mp with
      | none => readPartitions stat ms parts
      | some (ma, mi) =>
        match if isCustomType m.fsType then isSameMount ma mi m.mp parts else none with
        | some parts => readPartitions stat ms parts
        | none => readPartitions stat ms (parts ++ [⟨m.dev, m.mp, m.fsType, ma, mi⟩])

/-- `compare_partition`: the sign of `strcmp`, which takes bytes as unsigned. -/
def comparePartition (part₁ part₂ : Partition) : Ordering := compare part₁.mountPoint part₂.mountPoint

/-- `get_partitions`; there are none when `/proc/mounts` cannot be opened. In which order `qsort` leaves equal
mount points is not said, here they keep theirs. -/
def getPartitions (mounts : Option (List MountLine)) (stat : Bytes → Option (UInt8 × UInt8)) : List Partition :=
  match mounts with
  | none => []
  | some ms => (readPartitions stat ms []).mergeSort fun p q => (comparePartition p q).isLE

/-- The order that `get_path_partition` and `should_skip_path` rely on. -/
def SortedParts (parts : List Partition) : Prop := parts.Pairwise fun p q => (comparePartition p q).isLE

instance (parts : List Partition) : Decidable (SortedParts parts) :=
  inferInstanceAs (Decidable (List.Pairwise _ _))

/-- `get_partitions` leaves a sorted table. -/
theorem sortedParts_getPartitions (mounts : Option (List MountLine)) (stat : Bytes → Option (UInt8 × UInt8)) :
    SortedParts (getPartitions mounts stat) := by
  cases mounts with
  | none => exact List.Pairwise.nil
  | some ms =>
    refine List.pairwise_mergeSort (fun a b c hab hbc => ?_) (fun a b => ?_) _
    · exact Std.TransOrd.isLE_trans hab hbc
    · simp only [comparePartition]
      rw [← @Std.OrientedCmp.isGE_eq_isLE _ compare _ a.mountPoint b.mountPoint]
      cases compare a.mountPoint b.mountPoint <;> rfl

/-! ## The walk's filter -/

/-- The loop of `get_path_partition`, from below `i` down. -/
def getPathPartitionLoop (path : Bytes) (parts : List Partition) : ℕ → ℤ
  | 0 => -1
  | i + 1 =>
    match parts[i]? with
    | some p => if p.mountPoint.isPrefixOf path then i else getPathPartitionLoop path parts i
    | none => getPathPartitionLoop path parts i

def getPathPartition (path : Bytes) (parts : List Partition) : ℤ :=
  getPathPartitionLoop path parts parts.length

/-- `partition_filter` -/
structure PartitionFilter where
  selectedPartition : ℤ
  mergePartition : Bool
  partitions : List Partition

/-- `should_skip_path`; without a selected partition it reads in front of the table. -/
def PartitionFilter.shouldSkipPath (pf : PartitionFilter) (path : Bytes) : Option Bool :=
  match pf.selectedPartition with
  | .ofNat i =>
    pf.partitions[i]?.map fun selected =>
      isSpecialMountPoint path selected.fsType ||
        (!pf.mergePartition && (pf.partitions.drop (i + 1)).any fun p =>
          p.mountPoint.isPrefixOf path && !isCustomType p.fsType)
  | .negSucc _ => none

/-- The filter that `build_fstree` makes. -/
def partitionFilter (parts : List Partition) (mergePartition : Bool) (root : Bytes) : PartitionFilter where
  selectedPartition := getPathPartition root parts
  mergePartition := mergePartition
  partitions := parts

/-- What a walk with a filter meets. -/
def PartitionFilter.env (pf : PartitionFilter) (opendir : Bytes → Option (List Dirent))
    (pcf : ℕ → ℕ → Bytes → Option Bytes → Bool) (realloc : ℕ → Bool) : WalkEnv where
  shouldSkipPath p := (pf.shouldSkipPath p).getD false
  opendir := opendir
  pcf := pcf
  realloc := realloc

/-! ## What the filter is for -/

/-- The special mount areas for a partition of the type. -/
def SpecialArea (path fsType : Bytes) : Prop :=
  (Contains slash sysPath path ∨ Contains slash procPath path) ∨
    (Contains slash devPath path ∨ Contains slash runPath path) ∧ fsType ≠ tmpfs

/-- The partition that a path is on: of those whose mount point contains the path the one with the longest, and of
several mounted at one point the last in the table. -/
structure IsPartitionOf (parts : List Partition) (path : Bytes) (i : ℕ) (sel : Partition) : Prop where
  at_index : parts[i]? = some sel
  contains : Contains slash sel.mountPoint path
  longest : ∀ q ∈ parts, Contains slash q.mountPoint path → q.mountPoint.length ≤ sel.mountPoint.length
  last : ∀ q ∈ parts.drop (i + 1), Contains slash q.mountPoint path →
    q.mountPoint.length < sel.mountPoint.length

/-- The directories that a walk of the partition `sel` has to leave out. -/
def MustSkip (parts : List Partition) (sel : Partition) (path : Bytes) : Prop :=
  SpecialArea path sel.fsType ∨ ∃ q ∈ parts, isCustomType q.fsType = false ∧
    (Contains slash sel.mountPoint q.mountPoint ∧ q.mountPoint ≠ sel.mountPoint) ∧ Contains slash q.mountPoint path

/-- A path that begins with the other one, but in the middle of a name. -/
def BeginsOnly (a p : Bytes) : Prop := a <+: p ∧ ¬ Contains slash a p

instance (path fsType : Bytes) : Decidable (SpecialArea path fsType) := inferInstanceAs (Decidable (_ ∨ _))

instance (parts : List Partition) (sel : Partition) (path : Bytes) : Decidable (MustSkip parts sel path) :=
  inferInstanceAs (Decidable (_ ∨ _))

instance (a p : Bytes) : Decidable (BeginsOnly a p) := inferInstanceAs (Decidable (_ ∧ _))

theorem mountedAt_iff (mp root : Bytes) (hroot : root.getLast? ≠ some slash) :
    mountedAt mp root = true ↔ Contains slash root mp := by
  rw [mountedAt, Contains]
  simp only [Bool.or_eq_true, Bool.and_eq_true, decide_eq_true_eq, List.isPrefixOf_iff_prefix, hroot, false_or]
  constructor
  · rintro (rfl | ⟨⟨-, hpre⟩, hslash⟩)
    · exact ⟨List.prefix_rfl, .inl rfl⟩
    · exact ⟨hpre, .inr hslash⟩
  · rintro ⟨hpre, hlen | hslash⟩
    · exact .inl (hpre.eq_of_length hlen.symm).symm
    · have hlt : root.length < mp.length := by
        by_contra hnot
        rw [List.getElem?_eq_none (by omega)] at hslash
        cases hslash
      exact .inr ⟨⟨hlt, hpre⟩, hslash⟩

theorem isSpecialMountPoint_iff (path fsType : Bytes) :
    isSpecialMountPoint path fsType = true ↔ SpecialArea path fsType := by
  rw [isSpecialMountPoint, SpecialArea]
  simp only [Bool.or_eq_true, Bool.and_eq_true, decide_eq_true_eq]
  rw [mountedAt_iff _ sysPath (by decide), mountedAt_iff _ procPath (by decide),
    mountedAt_iff _ devPath (by decide), mountedAt_iff _ runPath (by decide)]

/-! ## The partition that is selected -/

variable {parts : List Partition} {root path : Bytes} {i : ℕ} {sel : Partition}

/-- The last entry whose mount point the path begins with is taken. -/
theorem getPathPartition_eq (hi : parts[i]? = some sel) (hsel : sel.mountPoint <+: path)
    (hlast : ∀ q ∈ parts.drop (i + 1), ¬ q.mountPoint <+: path) : getPathPartition path parts = i := by
  have hloop : ∀ n, i < n → n ≤ parts.length → getPathPartitionLoop path parts n = i := by
    intro n hlt hle
    induction n with
    | zero => omega
    | succ n ih =>
      have hn : parts[n]? = some parts[n] := List.getElem?_eq_getElem (by omega)
      rw [getPathPartitionLoop, hn]
      simp only [List.isPrefixOf_iff_prefix]
      by_cases hin : n = i
      · subst hin
        obtain rfl := Option.some.inj (hn.symm.trans hi)
        rw [if_pos hsel]
      · have hmem : parts[n] ∈ parts.drop (i + 1) := by
          rw [List.mem_iff_getElem?]
          refine ⟨n - (i + 1), ?_⟩
          rw [List.getElem?_drop, show i + 1 + (n - (i + 1)) = n by omega, hn]
        rw [if_neg (hlast _ hmem)]
        exact ih (by omega) (by omega)
  have hlt : i < parts.length := (List.getElem?_eq_some_iff.mp hi).1
  exact hloop _ hlt le_rfl

/-- A path that begins with some mount point has a last one that it begins with. -/
theorem exists_last_prefix (h : ∃ q ∈ parts, q.mountPoint <+: path) : ∃ i sel, parts[i]? = some sel ∧
    sel.mountPoint <+: path ∧ ∀ q ∈ parts.drop (i + 1), ¬ q.mountPoint <+: path := by
  induction parts with
  | nil => simp at h
  | cons p ps ih =>
    by_cases hps : ∃ q ∈ ps, q.mountPoint <+: path
    · obtain ⟨i, sel, hi, hsel, hlast⟩ := ih hps
      exact ⟨i + 1, sel, hi, hsel, hlast⟩
    · push Not at hps
      obtain ⟨q, hq, hpre⟩ := h
      have hp : p.mountPoint <+: path := by
        rcases List.mem_cons.mp hq with rfl | hq
        · exact hpre
        · exact absurd hpre (hps q hq)
      exact ⟨0, p, rfl, hp, hps⟩

/-- Of two mount points at the start of one path the one that is not behind the other in the table is the start of
the other. -/
theorem SortedParts.prefix_of_not_mem_drop (hsorted : SortedParts parts) (hi : parts[i]? = some sel)
    {q : Partition} (hq : q ∈ parts) (hnot : q ∉ parts.drop (i + 1)) {path : Bytes}
    (hqpath : q.mountPoint <+: path) (hsel : sel.mountPoint <+: path) : q.mountPoint <+: sel.mountPoint := by
  obtain ⟨j, hj⟩ := List.mem_iff_getElem?.mp hq
  obtain ⟨hjlt, hjeq⟩ := List.getElem?_eq_some_iff.mp hj
  obtain ⟨hilt, hieq⟩ := List.getElem?_eq_some_iff.mp hi
  by_cases hji : j < i
  · have hle := List.pairwise_iff_getElem.mp hsorted j i hjlt hilt hji
    rw [hjeq, hieq] at hle
    exact prefix_of_compare hqpath hsel hle
  · by_cases heq : j = i
    · subst heq
      obtain rfl := Option.some.inj (hj.symm.trans hi)
      exact List.prefix_rfl
    · refine absurd (List.mem_iff_getElem?.mpr ⟨j - (i + 1), ?_⟩) hnot
      rw [List.getElem?_drop, show i + 1 + (j - (i + 1)) = j by omega, hj]

theorem IsPartitionOf.unique {i' : ℕ} {sel' : Partition} (h : IsPartitionOf parts path i sel)
    (h' : IsPartitionOf parts path i' sel') : i = i' ∧ sel = sel' := by
  -- of two with the longest mount point neither stands behind the other
  have hle : ∀ {i i' sel sel'}, IsPartitionOf parts path i sel → IsPartitionOf parts path i' sel' → i' ≤ i := by
    intro i i' sel sel' h h'
    by_contra hlt
    have hmem : sel' ∈ parts.drop (i + 1) := by
      refine List.mem_iff_getElem?.mpr ⟨i' - (i + 1), ?_⟩
      rw [List.getElem?_drop, show i + 1 + (i' - (i + 1)) = i' by omega, h'.at_index]
    have hlast := h.last sel' hmem h'.contains
    have hlongest := h'.longest sel (List.mem_of_getElem? h.at_index) h.contains
    omega
  obtain rfl : i = i' := le_antisymm (hle h' h) (hle h h')
  exact ⟨rfl, Option.some.inj (h.at_index.symm.trans h'.at_index)⟩

/-- What `should_skip_path` says of a path, without merged partitions. -/
theorem shouldSkipPath_iff (hi : parts[i]? = some sel) :
    PartitionFilter.shouldSkipPath ⟨i, false, parts⟩ path = some true ↔ SpecialArea path sel.fsType ∨
      ∃ q ∈ parts.drop (i + 1), isCustomType q.fsType = false ∧ q.mountPoint <+: path := by
  have hsel : (i : ℤ) = Int.ofNat i := rfl
  rw [PartitionFilter.shouldSkipPath, hsel]
  simp only [hi, Option.map_some, Option.some.injEq, Bool.or_eq_true, isSpecialMountPoint_iff, Bool.not_false,
    Bool.true_and, List.any_eq_true, Bool.and_eq_true, List.isPrefixOf_iff_prefix, Bool.not_eq_true']
  exact or_congr_right (exists_congr fun q => and_congr_right fun _ => and_comm)

/-! ## When the filter is right -/

/-- For one root path and one path below it: the partition of the root path is selected, and the path is skipped
exactly when it has to be. -/
def FilterRight (parts : List Partition) (root path : Bytes) : Prop :=
  ∃ i sel, IsPartitionOf parts root i sel ∧ getPathPartition root parts = i ∧
    ((partitionFilter parts false root).shouldSkipPath path = some true ↔ MustSkip parts sel path)

/-- No mount point misleads: one that the root path begins with in the middle of a name is not longer than every
mount point that contains the root path, and one that goes beyond the root path and that the path begins with in
the middle of a name does no harm, since the path has to be skipped anyway or the partition is a custom one. -/
def NamesApart (parts : List Partition) (root path : Bytes) : Prop :=
  (∀ q ∈ parts, BeginsOnly q.mountPoint root →
    ∃ q' ∈ parts, Contains slash q'.mountPoint root ∧ q.mountPoint.length ≤ q'.mountPoint.length) ∧
  ∀ i sel, IsPartitionOf parts root i sel → ∀ q ∈ parts, isCustomType q.fsType = false →
    BeginsOnly q.mountPoint path → ¬ q.mountPoint <+: root → MustSkip parts sel path

/-- The selected partition is that of the root path exactly when its mount point contains the root path. -/
theorem isPartitionOf_of_contains (hsorted : SortedParts parts) (hi : parts[i]? = some sel)
    (hcontains : Contains slash sel.mountPoint root) (hlast : ∀ q ∈ parts.drop (i + 1), ¬ q.mountPoint <+: root) :
    IsPartitionOf parts root i sel where
  at_index := hi
  contains := hcontains
  longest q hq hc :=
    (hsorted.prefix_of_not_mem_drop hi hq (fun hmem => hlast q hmem hc.1) hc.1 hcontains.1).length_le
  last q hq hc := absurd hc.1 (hlast q hq)

section Skip

variable (hsorted : SortedParts parts) (hsel : IsPartitionOf parts root i sel)
  (hlast : ∀ q ∈ parts.drop (i + 1), ¬ q.mountPoint <+: root) (hbelow : Contains slash root path)
include hsorted hsel hbelow

/-- What has to be skipped is skipped: a mount point below the selected one stands behind it. -/
theorem MustSkip.skipped (h : MustSkip parts sel path) :
    PartitionFilter.shouldSkipPath ⟨i, false, parts⟩ path = some true := by
  rw [shouldSkipPath_iff hsel.at_index]
  refine h.imp_right ?_
  rintro ⟨q, hq, hcustom, ⟨hbelow', hne⟩, hcontains⟩
  refine ⟨q, ?_, hcustom, hcontains.1⟩
  by_contra hnot
  have hpre := hsorted.prefix_of_not_mem_drop hsel.at_index hq hnot hcontains.1
    (hsel.contains.1.trans hbelow.1)
  exact hne (hpre.eq_of_length (le_antisymm hpre.length_le hbelow'.1.length_le))

include hlast

omit hsorted in
/-- What is skipped begins with a mount point that goes beyond the root path. -/
theorem mustSkip_of_contains {q : Partition} (hq : q ∈ parts.drop (i + 1)) (hcustom : isCustomType q.fsType = false)
    (hcontains : Contains slash q.mountPoint path) : MustSkip parts sel path := by
  have hnot := hlast q hq
  have hroot : root <+: q.mountPoint :=
    (List.prefix_or_prefix_of_prefix hbelow.1 hcontains.1).resolve_right hnot
  refine .inr ⟨q, List.mem_of_mem_drop hq, hcustom,
    ⟨hsel.contains.between hbelow hroot hcontains.1, fun hsame => ?_⟩, hcontains⟩
  exact hnot (hsame ▸ hsel.contains.1)

theorem skips_iff : (PartitionFilter.shouldSkipPath ⟨i, false, parts⟩ path = some true ↔ MustSkip parts sel path) ↔
    ∀ q ∈ parts, isCustomType q.fsType = false → BeginsOnly q.mountPoint path → ¬ q.mountPoint <+: root →
      MustSkip parts sel path := by
  have hskip : PartitionFilter.shouldSkipPath ⟨i, false, parts⟩ path = some true ↔ _ := shouldSkipPath_iff hsel.at_index
  constructor
  · intro hright q hq hcustom hbegins hnot
    have hmem : q ∈ parts.drop (i + 1) := by
      by_contra hmem
      exact hnot ((hsorted.prefix_of_not_mem_drop hsel.at_index hq hmem hbegins.1
        (hsel.contains.1.trans hbelow.1)).trans hsel.contains.1)
    exact hright.mp (hskip.mpr (.inr ⟨q, hmem, hcustom, hbegins.1⟩))
  · refine fun hapart => ⟨fun h => ?_, MustSkip.skipped hsorted hsel hbelow⟩
    rcases hskip.mp h with hspecial | ⟨q, hq, hcustom, hpre⟩
    · exact .inl hspecial
    · by_cases hcontains : Contains slash q.mountPoint path
      · exact mustSkip_of_contains hsel hlast hbelow hq hcustom hcontains
      · exact hapart q (List.mem_of_mem_drop hq) hcustom ⟨hpre, hcontains⟩ (hlast q hq)

end Skip

/-- On a sorted table with `/` in it the filter is right for a path below the root path exactly when no mount point
misleads. -/
theorem filterRight_iff (hsorted : SortedParts parts) (hslash : ∃ q ∈ parts, q.mountPoint = [slash])
    (habsolute : root.head? = some slash) (hbelow : Contains slash root path) :
    FilterRight parts root path ↔ NamesApart parts root path := by
  obtain ⟨i, sel, hi, hsel, hlast⟩ : ∃ i sel, parts[i]? = some sel ∧ sel.mountPoint <+: root ∧
      ∀ q ∈ parts.drop (i + 1), ¬ q.mountPoint <+: root := by
    obtain ⟨q, hq, hmp⟩ := hslash
    refine exists_last_prefix ⟨q, hq, ?_⟩
    obtain ⟨rest, rfl⟩ := List.head?_eq_some_iff.mp habsolute
    rw [hmp]
    exact ⟨rest, rfl⟩
  have hselected := getPathPartition_eq hi hsel hlast
  have hfilter : partitionFilter parts false root = ⟨i, false, parts⟩ := by rw [partitionFilter, hselected]
  rw [FilterRight, hfilter]
  constructor
  · rintro ⟨i', sel', hof, heq, hright⟩
    obtain rfl : i = i' := by
      have := hselected.symm.trans heq
      omega
    obtain rfl : sel = sel' := Option.some.inj (hi.symm.trans hof.at_index)
    refine ⟨fun q hq hbegins => ⟨sel, List.mem_of_getElem? hi, hof.contains, ?_⟩, fun i' sel' hof' => ?_⟩
    · exact (hsorted.prefix_of_not_mem_drop hi hq (fun hmem => hlast q hmem hbegins.1) hbegins.1 hsel).length_le
    · obtain ⟨-, rfl⟩ := hof.unique hof'
      exact (skips_iff hsorted hof hlast hbelow).mp hright
  · rintro ⟨hroot, hpath⟩
    have hcontains : Contains slash sel.mountPoint root := by
      by_contra hnot
      obtain ⟨q, hq, hc, hlen⟩ := hroot sel (List.mem_of_getElem? hi) ⟨hsel, hnot⟩
      have hpre := hsorted.prefix_of_not_mem_drop hi hq (fun hmem => hlast q hmem hc.1) hc.1 hsel
      exact hnot (hpre.eq_of_length (le_antisymm hpre.length_le hlen) ▸ hc)
    have hof := isPartitionOf_of_contains hsorted hi hcontains hlast
    exact ⟨i, sel, hof, hselected, (skips_iff hsorted hof hlast hbelow).mpr (hpath i sel hof)⟩

/-- `ext4` -/
def ext4 : Bytes := [101, 120, 116, 52]

/-- `/home` -/
def homePath : Bytes := [47, 104, 111, 109, 101]

/-- A partition mounted at `/`, and one mounted at `/home`. -/
def homeParts : List Partition := [⟨[], [slash], ext4, 8, 1⟩, ⟨[], homePath, ext4, 8, 2⟩]

/-- The directory `/home/u` in a walk of `/`. -/
theorem filterRight_iff_sample : FilterRight homeParts [slash] (homePath ++ [slash, 117]) := by
  refine (filterRight_iff (by decide +kernel) ⟨_, List.mem_cons_self, rfl⟩ rfl (by decide)).mpr ⟨?_, ?_⟩
  · decide
  · intro i sel _ q hq _ hbegins
    have hnone : ∀ q ∈ homeParts, ¬ BeginsOnly q.mountPoint (homePath ++ [slash, 117]) := by decide
    exact absurd hbegins (hnone q hq)

/-- A directory `/home2` with a file `f`. -/
def home2Dir : Bytes → Option (List Dirent) := fun p =>
  if p = [slash] then some [⟨[104, 111, 109, 101, 50], .dir⟩]
  else if p = homePath ++ [50] then some [⟨[102], .reg⟩] else none

/-- With a partition mounted at `/home`, the directory `/home2` of the partition of `/` is left out, and the walk of
`/` does not find the file in it; and for the root path `/home2/` it is the partition of `/home` that is selected. -/
theorem not_filterRight : SortedParts homeParts ∧ Contains slash [slash] (homePath ++ [50]) ∧
    ¬ FilterRight homeParts [slash] (homePath ++ [50]) ∧
    ((partitionFilter homeParts false [slash]).env home2Dir (fun _ _ _ _ => false) (fun _ => true)).walkTree
      walkPath 3 [slash] = some (.node [104, 111, 109, 101, 50] .nil .nil) ∧
    ¬ FilterRight homeParts (homePath ++ [50, slash]) (homePath ++ [50, slash]) := by
  refine ⟨by decide +kernel, by decide, ?_, by decide +kernel, ?_⟩
  · rintro ⟨i, sel, hof, heq, hright⟩
    have hselected : getPathPartition [slash] homeParts = 0 := by decide
    obtain rfl : i = 0 := by omega
    obtain rfl := Option.some.inj hof.at_index
    exact absurd (hright.mp (by decide)) (by decide)
  · rintro ⟨i, sel, hof, heq, -⟩
    have hselected : getPathPartition (homePath ++ [50, slash]) homeParts = 1 := by decide
    obtain rfl : i = 1 := by omega
    obtain rfl := Option.some.inj hof.at_index
    exact absurd hof.contains (by decide)

end DeepinAnything
