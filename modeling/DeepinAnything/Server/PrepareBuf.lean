import DeepinAnything.Server.PagedListing

/-!
# The range of a search (`lftmanager.cpp`)

`_prepareBuf` finds the index of a path and, for a caller without offsets, the range of what is below the
path. `get_path_range` leaves the range alone when it does not find the path, and of the two variables that
`_prepareBuf` has for the range only the second is initialized.
-/

namespace DeepinAnything.Server

open ByteMem OrderedForest OrderedForest.Forest

/-! ## The index of a path -/

/-- What `getFsBufByPath` asks: the indexes in memory, `MountCacher`, the file systems below `/` and
`/sysroot`, and the locale. -/
structure IndexHost where
  fsBufMap : List (QString × FsBuf)
  findMountPointByPath : QString → QString
  convertMountpointFromRootToSysroot : Bool
  fromLocal8Bit : Bytes → QString

def sysroot : QString := "/sysroot".toList

namespace IndexHost

variable (host : IndexHost)

/-- The mount point under which the index of a path is looked up. -/
def mountPoint (path : QString) : QString :=
  let mountPoint := host.findMountPointByPath path
  if mountPoint = ['/'] ∧ sysroot.isPrefixOf path ∧ host.convertMountpointFromRootToSysroot then sysroot
  else mountPoint

/-- The path in the index: behind the root path of the index, without the mount point. -/
def pathInBuf (mountPoint path : QString) (buf : FsBuf) : QString :=
  let newPath := path.drop mountPoint.length
  let newPath := if newPath.head? = some '/' then newPath.tail else newPath
  let newPath := host.fromLocal8Bit buf.getRootPath ++ newPath
  if newPath.length > 1 ∧ newPath.getLast? = some '/' then newPath.dropLast else newPath

/-- `getFsBufByPath` -/
def getFsBufByPath (path : QString) : QString × Option FsBuf :=
  if path.head? ≠ some '/' then ([], none)
  else if host.findMountPointByPath path = [] then ([], none)
  else
    match host.fsBufMap.lookup (host.mountPoint path) with
    | some buf => (host.pathInBuf (host.mountPoint path) path buf, some buf)
    | none => ([], none)

/-- A manager with these indexes, in which uninitialized memory holds `garbage`. -/
def manager (env : SearchEnv) (garbage : ℕ) : SearchEnv :=
  { env with getFsBufByPath := host.getFsBufByPath, uninitialized := garbage }

end IndexHost

/-! ## What the range has to be -/

/-- The root of the index, or a directory with something in it. -/
def HasRange (t : Tree) (q : List Bytes) : Prop := q = [] ∨ ∃ k, t.entryAt q = some (.node k) ∧ k ≠ .nil

/-- `_prepareBuf` succeeds for the paths that have a range, with the range of what is below, and whatever
is in uninitialized memory. -/
structure RangeOk (prepareBuf : ℕ → Except SearchError (ℕ × ℕ × FsBuf × QString)) (b : FsBuf) (t : Tree)
    (found : Option (List Bytes)) (newpath : QString) : Prop where
  succeeds_iff : ∀ garbage, (∃ r, prepareBuf garbage = .ok r) ↔ ∃ q, found = some q ∧ HasRange t q
  range : ∀ garbage start stop buf path q, prepareBuf garbage = .ok (start, stop, buf, path) → found = some q →
    buf = b ∧ path = newpath ∧ ∀ q' e, q' ≠ [] → t.entryAt q' = some e →
      (start ≤ offAt b.firstNameOff t q' ∧ offAt b.firstNameOff t q' < stop ↔ q <+: q' ∧ q ≠ q')
  assigned : ∀ garbage garbage', prepareBuf garbage = prepareBuf garbage'

/-- The same for every path: without an index of the path there is no success. -/
structure Prepares (host : IndexHost) (env : SearchEnv) (startOffset endOffset : ℕ) (path : QString) : Prop where
  indexed : ∀ newpath b root t, host.getFsBufByPath path = (newpath, some b) → newpath ≠ [] →
    Represents b root t → RangeOk (fun garbage => (host.manager env garbage).prepareBuf startOffset endOffset path)
      b t (resolve root t (env.toLocal8Bit newpath)) newpath
  unindexed : (host.getFsBufByPath path).1 = [] ∨ (host.getFsBufByPath path).2 = none →
    ∀ garbage, ∃ code, (host.manager env garbage).prepareBuf startOffset endOffset path = .error code

variable {b : FsBuf} {root : Bytes} {t : Tree} {host : IndexHost} {env : SearchEnv} {path newpath : QString}
  {startOffset endOffset : ℕ}

/-- With an index, without offsets, and with a range. -/
theorem prepareBuf_found (hindex : host.getFsBufByPath path = (newpath, some b)) (hne : newpath ≠ [])
    (hoff : startOffset = 0 ∨ endOffset = 0) {off start stop : ℕ}
    (hrange : b.getPathRange (env.toLocal8Bit newpath) = some (off, start, stop)) (garbage : ℕ) :
    (host.manager env garbage).prepareBuf startOffset endOffset path =
      if start = 0 then .error .emptyDir else .ok (start, stop, b, newpath) := by
  rw [SearchEnv.prepareBuf]
  simp only [IndexHost.manager, hindex, hne, if_false, hoff, if_true, hrange]

/-- With an index that does not have the path: the start is what the variable held. -/
theorem prepareBuf_notFound (hindex : host.getFsBufByPath path = (newpath, some b)) (hne : newpath ≠ [])
    (hoff : startOffset = 0 ∨ endOffset = 0) (hrange : b.getPathRange (env.toLocal8Bit newpath) = none)
    (garbage : ℕ) :
    (host.manager env garbage).prepareBuf startOffset endOffset path =
      if garbage = 0 then .error .emptyDir else .ok (garbage, 0, b, newpath) := by
  rw [SearchEnv.prepareBuf]
  simp only [IndexHost.manager, hindex, hne, if_false, hoff, if_true, hrange]

/-- A path with a range. -/
theorem rangeOk_of_hasRange {prepareBuf : ℕ → Except SearchError (ℕ × ℕ × FsBuf × QString)} {q : List Bytes}
    {start stop : ℕ} (hrange : HasRange t q) (heq : ∀ garbage, prepareBuf garbage = .ok (start, stop, b, newpath))
    (hbelow : ∀ q' e, q' ≠ [] → t.entryAt q' = some e →
      (start ≤ offAt b.firstNameOff t q' ∧ offAt b.firstNameOff t q' < stop ↔ q <+: q' ∧ q ≠ q')) :
    RangeOk prepareBuf b t (some q) newpath := by
  refine ⟨fun garbage => iff_of_true ⟨_, heq garbage⟩ ⟨q, rfl, hrange⟩, ?_, fun garbage garbage' => ?_⟩
  · rintro garbage start' stop' buf path q₀ hok hq
    obtain rfl := Option.some.inj hq
    rw [heq garbage, Except.ok.injEq, Prod.mk.injEq, Prod.mk.injEq, Prod.mk.injEq] at hok
    obtain ⟨rfl, rfl, rfl, rfl⟩ := hok
    exact ⟨rfl, rfl, hbelow⟩
  · rw [heq garbage, heq garbage']

/-- A path without one. -/
theorem rangeOk_of_emptyDir {prepareBuf : ℕ → Except SearchError (ℕ × ℕ × FsBuf × QString)} {q : List Bytes}
    (hrange : ¬ HasRange t q) (heq : ∀ garbage, prepareBuf garbage = .error .emptyDir) :
    RangeOk prepareBuf b t (some q) newpath := by
  refine ⟨fun garbage => iff_of_false ?_ ?_, fun garbage start stop buf path q₀ hok => ?_, fun garbage garbage' => ?_⟩
  · rintro ⟨r, hr⟩
    rw [heq garbage] at hr
    cases hr
  · rintro ⟨q', hq', hq⟩
    obtain rfl := Option.some.inj hq'
    exact hrange hq
  · rw [heq garbage] at hok
    cases hok
  · rw [heq garbage, heq garbage']

/-- With an index of the path, `_prepareBuf` gives the right range exactly if the index has the path. -/
theorem rangeOk_iff (h : Represents b root t) (hindex : host.getFsBufByPath path = (newpath, some b))
    (hne : newpath ≠ []) (hoff : startOffset = 0 ∨ endOffset = 0) :
    RangeOk (fun garbage => (host.manager env garbage).prepareBuf startOffset endOffset path) b t
        (resolve root t (env.toLocal8Bit newpath)) newpath ↔
      (resolve root t (env.toLocal8Bit newpath)).isSome := by
  rcases h.lookup_cases (env.toLocal8Bit newpath) with
    ⟨hres, hlookup⟩ | ⟨hres, hlookup⟩ | ⟨c, l, r, n, e, rfl, hc, hn, hres, hlookup⟩
  · -- the path is not in the index
    have hrange : b.getPathRange (env.toLocal8Bit newpath) = none := by
      rw [FsBuf.getPathRange, hlookup]
      rfl
    rw [hres]
    refine iff_of_false (fun hok => ?_) (by simp)
    have hgarbage : (host.manager env 1).prepareBuf startOffset endOffset path = _ :=
      prepareBuf_notFound hindex hne hoff hrange 1
    obtain ⟨q, hq, -⟩ := (hok.succeeds_iff 1).mp ⟨_, hgarbage⟩
    cases hq
  · have hrange := Represents.getPathRange_root (b := b) hlookup
    rw [hres]
    have hpos := h.first_pos
    refine iff_of_true (rangeOk_of_hasRange (.inl rfl) (fun garbage =>
      (prepareBuf_found hindex hne hoff hrange garbage).trans (if_neg (by omega))) fun q' e hq' he => ?_) rfl
    · exact iff_of_true (h.offAt_mem_root hq' he) ⟨List.nil_prefix, fun heq => hq' heq.symm⟩
  · have hentry := entryAt_plug_cons hc e hn (r := r)
    rw [hres]
    refine iff_of_true ?_ rfl
    by_cases hkids : e.kids = .nil
    · have hrange := h.getPathRange_childless hkids hlookup
      refine rangeOk_of_emptyDir ?_ fun garbage => ?_
      · rintro (hroot | ⟨k, hk, hkne⟩)
        · simp at hroot
        · obtain rfl := Option.some.inj (hentry.symm.trans hk)
          exact hkne hkids
      · rw [prepareBuf_found hindex hne hoff hrange, if_pos rfl]
    · obtain ⟨k, rfl⟩ : ∃ k, e = .node k := by
        cases e with
        | leaf => exact absurd rfl hkids
        | node k => exact ⟨k, rfl⟩
      obtain ⟨off, start, stop, hrange, hbelow⟩ := h.getPathRange_iff_below hn hkids hlookup
      obtain ⟨hdir, hstart⟩ := h.getPathRange_dir hkids hlookup
      rw [hdir, Option.some.injEq, Prod.mk.injEq, Prod.mk.injEq] at hrange
      obtain ⟨-, rfl, rfl⟩ := hrange
      refine rangeOk_of_hasRange (.inr ⟨k, hentry, hkids⟩) (fun garbage => ?_) hbelow
      rw [prepareBuf_found hindex hne hoff hdir, if_neg hstart]

/-- `_prepareBuf` does what it has to do for a path without offsets exactly if the path has no index, or its
index has the path. -/
theorem prepares_iff (host : IndexHost) (env : SearchEnv) {startOffset endOffset : ℕ}
    (hoff : startOffset = 0 ∨ endOffset = 0) (path : QString) :
    Prepares host env startOffset endOffset path ↔
      ∀ newpath b root t, host.getFsBufByPath path = (newpath, some b) → newpath ≠ [] → Represents b root t →
        (resolve root t (env.toLocal8Bit newpath)).isSome := by
  constructor
  · intro hok newpath b root t hindex hne h
    exact (rangeOk_iff h hindex hne hoff).mp (hok.indexed newpath b root t hindex hne h)
  · intro hfound
    refine ⟨fun newpath b root t hindex hne h =>
      (rangeOk_iff h hindex hne hoff).mpr (hfound newpath b root t hindex hne h), fun hnone garbage => ?_⟩
    rw [SearchEnv.prepareBuf]
    simp only [IndexHost.manager]
    by_cases hne : (host.getFsBufByPath path).1 = []
    · simp only [hne, if_true]
      exact ⟨_, rfl⟩
    · simp only [hne, if_false, hnone.resolve_left hne]
      exact ⟨_, rfl⟩

/-! ## A path that the index has, and one that it does not have -/

/-- The index of the image of `/d/a/x` and `/d/b`, for the mount point `/`. -/
def sampleHost : IndexHost where
  fsBufMap := [(['/'], sampleDirBuf)]
  findMountPointByPath := fun _ => ['/']
  convertMountpointFromRootToSysroot := false
  fromLocal8Bit := (sampleEnv sampleDirBuf).fromLocal8Bit

/-- `/d/a` has a range, and `/d/b` has none. -/
theorem prepares_iff_sample :
    Prepares sampleHost (sampleEnv sampleDirBuf) 0 0 "/d/a".toList ∧
    Prepares sampleHost (sampleEnv sampleDirBuf) 0 7 "/d/b".toList := by
  have hfound : ∀ path, path = "/d/a".toList ∨ path = "/d/b".toList → ∀ newpath b root t,
      sampleHost.getFsBufByPath path = (newpath, some b) → newpath ≠ [] → Represents b root t →
        (resolve root t ((sampleEnv sampleDirBuf).toLocal8Bit newpath)).isSome := by
    intro path hpath newpath b root t hindex _ h
    have hlookup : (sampleHost.getFsBufByPath path).2 = some sampleDirBuf ∧
        sampleDirBuf.getPathOffset ((sampleEnv sampleDirBuf).toLocal8Bit (sampleHost.getFsBufByPath path).1) ≠ 0 := by
      rcases hpath with rfl | rfl <;> exact ⟨rfl, by decide⟩
    rw [hindex] at hlookup
    obtain rfl := Option.some.inj hlookup.1
    rcases h.lookup_cases ((sampleEnv sampleDirBuf).toLocal8Bit newpath) with
      ⟨-, hoff⟩ | ⟨hres, -⟩ | ⟨c, l, r, n, e, -, -, -, hres, -⟩
    · exact absurd hoff hlookup.2
    · rw [hres]
      rfl
    · rw [hres]
      rfl
  exact ⟨(prepares_iff sampleHost (sampleEnv sampleDirBuf) (.inl rfl) _).mpr (hfound _ (.inl rfl)),
    (prepares_iff sampleHost (sampleEnv sampleDirBuf) (.inl rfl) _).mpr (hfound _ (.inr rfl))⟩

/-- `/c` is not in the index. With 99 in the uninitialized variable `_prepareBuf` succeeds with the offsets
99 and 0. -/
theorem not_prepares :
    sampleHost.getFsBufByPath "/c".toList = ("/c".toList, some sampleDirBuf) ∧
    (sampleHost.manager (sampleEnv sampleDirBuf) 99).prepareBuf 0 0 "/c".toList =
      .ok (99, 0, sampleDirBuf, "/c".toList) ∧
    ¬ Prepares sampleHost (sampleEnv sampleDirBuf) 0 0 "/c".toList := by
  have hindex : sampleHost.getFsBufByPath "/c".toList = ("/c".toList, some sampleDirBuf) := rfl
  have hrange : sampleDirBuf.getPathRange ((sampleEnv sampleDirBuf).toLocal8Bit "/c".toList) = none := by decide
  have hok : (sampleHost.manager (sampleEnv sampleDirBuf) 99).prepareBuf 0 0 "/c".toList = _ :=
    prepareBuf_notFound hindex (by decide) (.inl rfl : 0 = 0 ∨ 0 = 0) hrange 99
  refine ⟨hindex, hok, fun hall => ?_⟩
  have hrangeOk := hall.indexed _ _ _ _ hindex (by decide) represents_sampleDirBuf
  obtain ⟨q, hq, -⟩ := (hrangeOk.succeeds_iff 99).mp ⟨_, hok⟩
  have hnone : resolve [47] (.node [100] (.node [97] (.leaf [120] .nil) (.leaf [98] .nil)) .nil)
      ((sampleEnv sampleDirBuf).toLocal8Bit "/c".toList) = none := by decide
  rw [hnone] at hq
  cases hq

end DeepinAnything.Server
