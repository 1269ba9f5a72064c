import Mathlib.Data.List.DropRight
import DeepinAnything.Lib.Below
import DeepinAnything.Lib.Bfs
import DeepinAnything.FsBuf.Layout

/-!
# Looking for a directory in a mount (`utils.c`)

A path below a bind mount is turned into one below the mount it comes from: `bfs_search` goes through the
directories of the mount until one has the device and the inode of the path. It keeps to the device and
stays out of the bind mounts, which it knows by their paths. The search is a `Bfs` over path strings; over
a tree of files these are the addresses below the start.
-/

namespace DeepinAnything

open ByteMem

/-! ## The functions -/

/-- `struct stat`, as far as it is read. -/
structure Stat where
  isDir : Bool
  dev : ℕ
  ino : ℕ
deriving DecidableEq, Repr

/-- What the file system answers: the names that `g_dir_open` and `g_dir_read_name` give for a path,
and what `lstat` tells; `none` is a call that fails. -/
structure DirEnv where
  gDirOpen : Bytes → Option (List Bytes)
  lstat : Bytes → Option Stat

/-- `g_build_filename` for a directory and the name of an entry: one slash between them. -/
def gBuildFilename (dir entry : Bytes) : Bytes :=
  let stripped := dir.rdropWhile (· = slash)
  if stripped = [] then dir ++ entry else stripped ++ slash :: entry

/-- `is_mount_point` -/
def isMountPoint (mounts : List Bytes) (dir : Bytes) : Bool := mounts.any fun data => dir = data

namespace DirEnv

variable (env : DirEnv) (mounts : List Bytes) (targetDev targetIno : ℕ)

/-- The `g_dir_read_name` loop of `bfs_search`: the match, or the queue with the directories pushed. -/
def readNames (currentPath : Bytes) : List Bytes → List Bytes → Bytes ⊕ List Bytes
  | [], queue => .inr queue
  | entry :: entries, queue =>
    let fullPath := gBuildFilename currentPath entry
    match env.lstat fullPath with
    | none => readNames currentPath entries queue
    | some entrySt =>
      if entrySt.isDir ∧ entrySt.dev = targetDev ∧ ¬ isMountPoint mounts fullPath then
        if entrySt.ino = targetIno then .inl fullPath
        else readNames currentPath entries (queue ++ [fullPath])
      else readNames currentPath entries queue

/-- One round of `bfs_search`, on its queue. -/
def bfsRound : List Bytes → List Bytes ⊕ Option Bytes
  | [] => .inr none
  | currentPath :: queue =>
    match env.gDirOpen currentPath with
    | none => .inl queue
    | some entries =>
      match env.readNames mounts targetDev targetIno currentPath entries queue with
      | .inl ret => .inr (some ret)
      | .inr queue => .inl queue

/-- `bfs_search`: the path it returns, if it ends within its fuel. -/
def bfsSearch (fuel : ℕ) (startPath : Bytes) : Option (Option Bytes) :=
  Loop.run (env.bfsRound mounts targetDev targetIno) fuel [startPath]

/-- `find_matching_dir`; `getBindMountpoints` is what libmount lists for a device. -/
def findMatchingDir (getBindMountpoints : ℕ → List Bytes) (fuel : ℕ) (mountDir searchDir : Bytes) :
    Option (Option Bytes) :=
  match env.lstat searchDir, env.lstat mountDir with
  | some searchSt, some mountSt =>
    if searchSt.dev ≠ mountSt.dev then some none
    else if searchSt.ino = mountSt.ino then some (some mountDir)
    else env.bfsSearch (getBindMountpoints mountSt.dev) searchSt.dev searchSt.ino fuel mountDir
  | _, _ => some none

/-! ## The search as a search over paths -/

/-- What the queue takes: a directory of the device that is no bind mount. -/
def Enterable (p : Bytes) : Prop :=
  ∃ st, env.lstat p = some st ∧ st.isDir ∧ st.dev = targetDev ∧ p ∉ mounts

/-- The same as a test. -/
def enterable (p : Bytes) : Bool :=
  (env.lstat p).any fun st => st.isDir ∧ st.dev = targetDev ∧ ¬ isMountPoint mounts p

/-- The directories below a directory that the queue takes. -/
def kids (p : Bytes) : List Bytes :=
  (((env.gDirOpen p).getD []).map (gBuildFilename p)).filter (env.enterable mounts targetDev)

/-- Has the path the inode? -/
def isTarget (p : Bytes) : Bool := (env.lstat p).any fun st => st.ino = targetIno

variable {env mounts targetDev targetIno}

theorem enterable_iff {p : Bytes} : env.enterable mounts targetDev p ↔ env.Enterable mounts targetDev p := by
  cases h : env.lstat p <;> simp [enterable, Enterable, h, isMountPoint]

/-- The loop over the names looks for the inode among the directories that the queue takes, and
queues them when it is not there. -/
theorem readNames_eq (currentPath : Bytes) (entries queue : List Bytes) :
    env.readNames mounts targetDev targetIno currentPath entries queue =
      let dirs := (entries.map (gBuildFilename currentPath)).filter (env.enterable mounts targetDev)
      match dirs.find? (env.isTarget targetIno) with
      | some p => .inl p
      | none => .inr (queue ++ dirs) := by
  induction entries generalizing queue with
  | nil => simp [readNames]
  | cons entry entries ih =>
    rw [readNames]
    simp only [List.map_cons]
    cases hstat : env.lstat (gBuildFilename currentPath entry) with
    | none =>
      have hnot : env.enterable mounts targetDev (gBuildFilename currentPath entry) = false := by
        simp [enterable, hstat]
      rw [List.filter_cons_of_neg (by simp [hnot])]
      exact ih queue
    | some st =>
      by_cases henter : st.isDir ∧ st.dev = targetDev ∧ ¬ isMountPoint mounts (gBuildFilename currentPath entry)
      · have hyes : env.enterable mounts targetDev (gBuildFilename currentPath entry) := by
          simpa [enterable, hstat] using henter
        simp only [if_pos henter, List.filter_cons_of_pos hyes]
        by_cases hino : st.ino = targetIno
        · have htarget : env.isTarget targetIno (gBuildFilename currentPath entry) := by
            simp [isTarget, hstat, hino]
          rw [if_pos hino, List.find?_cons_of_pos htarget]
        · have htarget : ¬ env.isTarget targetIno (gBuildFilename currentPath entry) := by
            simp [isTarget, hstat, hino]
          rw [if_neg hino, List.find?_cons_of_neg htarget, ih]
          simp only [List.append_assoc, List.singleton_append]
      · have hnot : ¬ env.enterable mounts targetDev (gBuildFilename currentPath entry) := by
          simpa [enterable, hstat] using henter
        simp only [if_neg henter, List.filter_cons_of_neg hnot]
        exact ih queue

/-- A round is a round of the search over paths. -/
theorem bfsRound_eq : env.bfsRound mounts targetDev targetIno =
    Bfs.round (env.kids mounts targetDev) (env.isTarget targetIno) := by
  funext queue
  cases queue with
  | nil => rfl
  | cons currentPath queue =>
    rw [bfsRound, Bfs.round, kids]
    cases env.gDirOpen currentPath with
    | none => simp
    | some entries =>
      simp only [readNames_eq, Option.getD_some]
      cases List.find? (env.isTarget targetIno) _ <;> rfl

/-- A path that `find_matching_dir` returns has the device and the inode of the path it was given. -/
theorem sameInode_of_findMatchingDir {getBindMountpoints : ℕ → List Bytes} {fuel : ℕ}
    {mountDir searchDir p : Bytes}
    (h : env.findMatchingDir getBindMountpoints fuel mountDir searchDir = some (some p)) :
    ∃ st searchSt, env.lstat p = some st ∧ env.lstat searchDir = some searchSt ∧
      st.dev = searchSt.dev ∧ st.ino = searchSt.ino := by
  rw [findMatchingDir] at h
  split at h
  swap
  · cases h
  rename_i searchSt mountSt hsearch hmount
  split_ifs at h with hdev hino
  · cases h
  · obtain rfl := Option.some.inj (Option.some.inj h)
    exact ⟨mountSt, searchSt, hmount, hsearch, (not_not.mp hdev).symm, hino.symm⟩
  · rw [bfsSearch, bfsRound_eq] at h
    obtain ⟨d, hlevel, hgoal, -⟩ := Bfs.goal_of_run h
    obtain ⟨x, -, hp⟩ := List.mem_flatMap.mp hlevel
    obtain ⟨st, hst, -, hstdev, -⟩ := enterable_iff.mp (List.mem_filter.mp hp).2
    rw [isTarget, hst, Option.any_some, decide_eq_true_eq] at hgoal
    exact ⟨st, searchSt, hst, hsearch, hstdev, hgoal⟩

end DirEnv

/-! ## Trees of files -/

/-- The entries of a directory in the order in which they are read. Below what is no directory, a
symbolic link for one, the tree has nothing. -/
inductive Entries where
  | nil
  | other (name : Bytes) (dev ino : ℕ) (next : Entries)
  | dir (name : Bytes) (dev ino : ℕ) (kids next : Entries)
deriving DecidableEq, Repr

namespace Entries

def names : Entries → List Bytes
  | nil => []
  | other n _ _ next => n :: next.names
  | dir n _ _ _ next => n :: next.names

/-- What stands under a name, and what is below it. -/
def find? (n : Bytes) : Entries → Option (Stat × Entries)
  | nil => none
  | other m dev ino next => if m = n then some (⟨false, dev, ino⟩, nil) else next.find? n
  | dir m dev ino kids next => if m = n then some (⟨true, dev, ino⟩, kids) else next.find? n

/-- Every entry has a name. -/
def NamesOk : Entries → Prop
  | nil => True
  | other n _ _ next => NameOk n ∧ next.NamesOk
  | dir n _ _ kids next => NameOk n ∧ kids.NamesOk ∧ next.NamesOk

instance decidableNamesOk : (t : Entries) → Decidable t.NamesOk
  | nil => inferInstanceAs (Decidable True)
  | other _ _ _ next =>
    have := decidableNamesOk next
    inferInstanceAs (Decidable (_ ∧ _))
  | dir _ _ _ kids next =>
    have := decidableNamesOk kids
    have := decidableNamesOk next
    inferInstanceAs (Decidable (_ ∧ _ ∧ _))

def height : Entries → ℕ
  | nil => 0
  | other _ _ _ next => max 1 next.height
  | dir _ _ _ kids next => max (kids.height + 1) next.height

variable {t k : Entries} {n : Bytes} {st : Stat}

theorem mem_names_iff : n ∈ t.names ↔ ∃ x, t.find? n = some x := by
  induction t with
  | nil => simp [names, find?]
  | other m dev ino next ih =>
    by_cases hm : m = n
    · simp [names, find?, hm]
    · simp [names, find?, hm, Ne.symm hm, ih]
  | dir m dev ino kids next _ ih =>
    by_cases hm : m = n
    · simp [names, find?, hm]
    · simp [names, find?, hm, Ne.symm hm, ih]

/-- What is found has a name, and its own entries have names and less height. -/
theorem find?_spec (ht : t.NamesOk) (h : t.find? n = some (st, k)) :
    NameOk n ∧ k.NamesOk ∧ k.height + 1 ≤ t.height := by
  induction t with
  | nil => cases h
  | other m dev ino next ih =>
    rw [find?] at h
    split at h
    · rename_i hm
      obtain ⟨-, rfl⟩ : _ ∧ nil = k := by simpa using h
      exact ⟨hm ▸ ht.1, trivial, le_max_left _ _⟩
    · obtain ⟨hn, hk, hheight⟩ := ih ht.2 h
      exact ⟨hn, hk, hheight.trans (le_max_right _ _)⟩
  | dir m dev ino kids next _ ih =>
    rw [find?] at h
    split at h
    · rename_i hm
      obtain ⟨-, rfl⟩ : _ ∧ kids = k := by simpa using h
      exact ⟨hm ▸ ht.1, ht.2.1, le_max_left _ _⟩
    · obtain ⟨hn, hk, hheight⟩ := ih ht.2.2 h
      exact ⟨hn, hk, hheight.trans (le_max_right _ _)⟩

end Entries

/-- A file system: its root directory and what is below it. -/
structure FileTree where
  dev : ℕ
  ino : ℕ
  entries : Entries
  namesOk : entries.NamesOk

/-- The path of an address. -/
def pathString (a : List Bytes) : Bytes := if a = [] then [slash] else a.flatMap (slash :: ·)

namespace FileTree

variable (fs : FileTree)

/-- What stands at an address below an entry. -/
def lookup : List Bytes → Stat × Entries → Option (Stat × Entries)
  | [], x => some x
  | n :: a, x => if x.1.isDir then (x.2.find? n).bind (lookup a) else none

/-- What stands at an address. -/
def at? (a : List Bytes) : Option (Stat × Entries) := lookup a (⟨true, fs.dev, fs.ino⟩, fs.entries)

/-- The calls on a tree: a path leads where its names lead. `opens` and `stats` say for which paths
`g_dir_open` and `lstat` are let through; a path may be too long for them, or closed to the caller. -/
def env (opens stats : Bytes → Bool) : DirEnv where
  gDirOpen p :=
    if opens p then
      (fs.at? (Below.names slash p)).bind fun x => if x.1.isDir then some x.2.names else none
    else none
  lstat p := if stats p then (fs.at? (Below.names slash p)).map Prod.fst else none

variable {fs}

theorem lookup_append (a a' : List Bytes) (x : Stat × Entries) :
    lookup (a ++ a') x = (lookup a x).bind (lookup a') := by
  induction a generalizing x with
  | nil => rfl
  | cons n a ih =>
    rw [List.cons_append, lookup, lookup]
    split
    · cases x.2.find? n with
      | none => rfl
      | some y => exact ih y
    · rfl

/-- What is found at an address has been led to by names, and is not deeper than the tree. -/
theorem lookup_spec {a : List Bytes} {x y : Stat × Entries} (hx : x.2.NamesOk) (h : lookup a x = some y) :
    (∀ n ∈ a, NameOk n) ∧ y.2.NamesOk ∧ a.length + y.2.height ≤ x.2.height := by
  induction a generalizing x with
  | nil =>
    obtain rfl := Option.some.inj h
    exact ⟨by simp, hx, by simp⟩
  | cons n a ih =>
    rw [lookup] at h
    split at h
    · obtain ⟨z, hz, h⟩ := Option.bind_eq_some_iff.mp h
      obtain ⟨hn, hzok, hheight⟩ := Entries.find?_spec hx hz
      obtain ⟨ha, hy, hlen⟩ := ih hzok h
      refine ⟨fun m hm => ?_, hy, ?_⟩
      · rcases List.mem_cons.mp hm with rfl | hm
        · exact hn
        · exact ha m hm
      · rw [List.length_cons]
        omega
    · cases h

theorem at?_append_singleton (a : List Bytes) (n : Bytes) :
    fs.at? (a ++ [n]) = (fs.at? a).bind fun x => if x.1.isDir then x.2.find? n else none := by
  rw [at?, lookup_append]
  refine congrArg _ (funext fun x => ?_)
  have hlast : (x.2.find? n).bind (lookup []) = x.2.find? n := Option.bind_fun_some _
  rw [lookup, hlast]

/-! ## Paths and addresses -/

theorem pathString_append_singleton (a : List Bytes) (n : Bytes) :
    pathString (a ++ [n]) = a.flatMap (slash :: ·) ++ slash :: n := by
  simp [pathString]

/-- The names in the path of an address are the address. -/
theorem names_pathString {a : List Bytes} (ha : ∀ n ∈ a, NameOk n) : Below.names slash (pathString a) = a := by
  have hflat : Below.names slash (a.flatMap (slash :: ·)) = a := by
    induction a using List.reverseRecOn with
    | nil => simp
    | append_singleton a n ih =>
      have hn := ha n (by simp)
      rw [List.flatMap_append, List.flatMap_singleton, Below.names_append_cons,
        ih fun m hm => ha m (List.mem_append_left _ hm), Below.names, List.splitOn_eq_singleton hn.2.2]
      simp [hn.1]
  rw [pathString]
  split
  · rename_i h
    simp [h]
  · exact hflat

/-- A name goes behind the path of its directory. -/
theorem gBuildFilename_pathString {a : List Bytes} (ha : ∀ n ∈ a, NameOk n) (n : Bytes) :
    gBuildFilename (pathString a) n = pathString (a ++ [n]) := by
  rw [pathString_append_singleton]
  rcases List.eq_nil_or_concat a with rfl | ⟨a, m, rfl⟩
  · simp [gBuildFilename, pathString]
  · rw [List.concat_eq_append] at ha ⊢
    obtain ⟨hm, -, hslash⟩ := ha m (by simp)
    have hlast : m.getLast hm ≠ slash := fun heq => hslash (heq ▸ List.getLast_mem hm)
    have hstrip : (pathString (a ++ [m])).rdropWhile (· = slash) = pathString (a ++ [m]) := by
      rw [List.rdropWhile_eq_self_iff, pathString_append_singleton]
      intro hne
      rw [List.getLast_append_of_ne_nil _ (by simp), List.getLast_cons hm]
      simpa using hlast
    rw [gBuildFilename, hstrip, pathString_append_singleton]
    simp

/-! ## What the search finds -/

section Search

variable (fs) (opens stats : Bytes → Bool) (mounts : List Bytes) (targetDev targetIno : ℕ)

/-- From a directory one may go to an entry: both calls are let through, and the entry is a directory of
the device and no bind mount. -/
structure Enters (a : List Bytes) (n : Bytes) : Prop where
  opens : opens (pathString a)
  stats : stats (pathString (a ++ [n]))
  isDir : ∃ ino t, fs.at? (a ++ [n]) = some (⟨true, targetDev, ino⟩, t)
  not_mount : pathString (a ++ [n]) ∉ mounts

/-- From the start one comes to what is below it at `q`, entering one directory after the other. -/
def Reachable (start q : List Bytes) : Prop :=
  ∀ q' n, q' ++ [n] <+: q → fs.Enters opens stats mounts targetDev (start ++ q') n

/-- What the search is for: a directory below the start, with the inode. -/
structure Target (start q : List Bytes) : Prop where
  below : q ≠ []
  reachable : fs.Reachable opens stats mounts targetDev start q
  inode : ∃ t, fs.at? (start ++ q) = some (⟨true, targetDev, targetIno⟩, t)

variable {fs opens stats mounts targetDev targetIno} {start q : List Bytes} {n : Bytes}

theorem reachable_nil : fs.Reachable opens stats mounts targetDev start [] := fun q' n h => by
  simp at h

/-- One more step. -/
theorem reachable_append_singleton : fs.Reachable opens stats mounts targetDev start (q ++ [n]) ↔
    fs.Reachable opens stats mounts targetDev start q ∧
      fs.Enters opens stats mounts targetDev (start ++ q) n := by
  constructor
  · exact fun h => ⟨fun q' m hpre => h q' m (hpre.trans (List.prefix_append _ _)),
      h q n List.prefix_rfl⟩
  · rintro ⟨hq, hn⟩ q' m hpre
    rcases List.prefix_concat_iff.mp hpre with heq | hpre
    · obtain ⟨rfl, hm⟩ := List.append_inj' heq rfl
      obtain rfl : m = n := by simpa using hm
      exact hn
    · exact hq q' m hpre

/-- Something stands where one comes to. -/
theorem Reachable.exists_at (hstart : ∃ x, fs.at? start = some x)
    (h : fs.Reachable opens stats mounts targetDev start q) : ∃ x, fs.at? (start ++ q) = some x := by
  rcases List.eq_nil_or_concat q with rfl | ⟨q, n, rfl⟩
  · rwa [List.append_nil]
  · rw [List.concat_eq_append] at h ⊢
    obtain ⟨ino, t, ht⟩ := (reachable_append_singleton.mp h).2.isDir
    exact ⟨_, by rw [← List.append_assoc]; exact ht⟩

/-- Names lead there. -/
theorem Reachable.namesOk (hstart : ∃ x, fs.at? start = some x)
    (h : fs.Reachable opens stats mounts targetDev start q) : ∀ n ∈ start ++ q, NameOk n := by
  obtain ⟨x, hx⟩ := h.exists_at hstart
  exact (lookup_spec fs.namesOk hx).1

theorem gDirOpen_eq_some {a names : List Bytes} (ha : ∀ n ∈ a, NameOk n) :
    (fs.env opens stats).gDirOpen (pathString a) = some names ↔
      opens (pathString a) ∧ ∃ x, fs.at? a = some x ∧ x.1.isDir ∧ x.2.names = names := by
  simp only [env, names_pathString ha]
  by_cases hopens : opens (pathString a)
  · simp [hopens, Option.bind_eq_some_iff]
  · simp [hopens]

theorem lstat_eq_some {a : List Bytes} (ha : ∀ n ∈ a, NameOk n) {st : Stat} :
    (fs.env opens stats).lstat (pathString a) = some st ↔
      stats (pathString a) ∧ ∃ t, fs.at? a = some (st, t) := by
  simp only [env, names_pathString ha]
  by_cases hstats : stats (pathString a)
  · simp [hstats]
  · simp [hstats]

/-- The kids of a path are the directories that may be entered. -/
theorem mem_kids_iff {a : List Bytes} (ha : ∀ n ∈ a, NameOk n) {p : Bytes} :
    p ∈ (fs.env opens stats).kids mounts targetDev (pathString a) ↔
      ∃ n, fs.Enters opens stats mounts targetDev a n ∧ p = pathString (a ++ [n]) := by
  have happend : ∀ {n}, NameOk n → ∀ m ∈ a ++ [n], NameOk m := fun hn m hm => by
    rcases List.mem_append.mp hm with hm | hm
    · exact ha m hm
    · exact List.mem_singleton.mp hm ▸ hn
  rw [DirEnv.kids, List.mem_filter, List.mem_map]
  constructor
  · rintro ⟨⟨n, hn, rfl⟩, henter⟩
    rw [gBuildFilename_pathString ha] at henter ⊢
    -- the name is one that the directory lists
    obtain ⟨names, hopen⟩ : ∃ names, (fs.env opens stats).gDirOpen (pathString a) = some names := by
      cases h : (fs.env opens stats).gDirOpen (pathString a) with
      | none => simp [h] at hn
      | some names => exact ⟨names, rfl⟩
    rw [hopen, Option.getD_some] at hn
    obtain ⟨hopens, x, hx, -, rfl⟩ := (gDirOpen_eq_some ha).mp hopen
    obtain ⟨⟨st, t⟩, hfind⟩ := Entries.mem_names_iff.mp hn
    have hname := (Entries.find?_spec (lookup_spec fs.namesOk hx).2.1 hfind).1
    obtain ⟨⟨isDir, dev, ino⟩, hst, hdir, hdev, hmount⟩ := DirEnv.enterable_iff.mp henter
    obtain ⟨hstats, t', ht'⟩ := (lstat_eq_some (happend hname)).mp hst
    obtain rfl : isDir = true := hdir
    obtain rfl : dev = targetDev := hdev
    exact ⟨n, ⟨hopens, hstats, ⟨ino, t', ht'⟩, hmount⟩, rfl⟩
  · rintro ⟨n, ⟨hopens, hstats, ⟨ino, t, ht⟩, hmount⟩, rfl⟩
    have hat := ht
    rw [at?_append_singleton] at hat
    obtain ⟨x, hx, hat⟩ := Option.bind_eq_some_iff.mp hat
    split at hat
    swap
    · cases hat
    rename_i hdir
    have hname := (Entries.find?_spec (lookup_spec fs.namesOk hx).2.1 hat).1
    refine ⟨⟨n, ?_, gBuildFilename_pathString ha n⟩, DirEnv.enterable_iff.mpr ?_⟩
    · rw [(gDirOpen_eq_some ha).mpr ⟨hopens, x, hx, hdir, rfl⟩, Option.getD_some]
      exact Entries.mem_names_iff.mpr ⟨_, hat⟩
    · exact ⟨_, (lstat_eq_some (happend hname)).mpr ⟨hstats, t, ht⟩, rfl, rfl, hmount⟩

/-- The levels of the search are what can be reached in so many steps. -/
theorem mem_level_iff (hstart : ∃ x, fs.at? start = some x) {k : ℕ} {p : Bytes} :
    p ∈ Bfs.level ((fs.env opens stats).kids mounts targetDev) (pathString start) k ↔
      ∃ q, q.length = k ∧ p = pathString (start ++ q) ∧ fs.Reachable opens stats mounts targetDev start q := by
  induction k generalizing p with
  | zero =>
    rw [Bfs.level, List.mem_singleton]
    constructor
    · rintro rfl
      exact ⟨[], rfl, by rw [List.append_nil], reachable_nil⟩
    · rintro ⟨q, hq, rfl, -⟩
      rw [List.length_eq_zero_iff.mp hq, List.append_nil]
  | succ k ih =>
    rw [Bfs.level, List.mem_flatMap]
    constructor
    · rintro ⟨y, hy, hp⟩
      obtain ⟨q, rfl, rfl, hq⟩ := ih.mp hy
      obtain ⟨n, hn, rfl⟩ := (mem_kids_iff (hq.namesOk hstart)).mp hp
      refine ⟨q ++ [n], by simp, by rw [List.append_assoc], reachable_append_singleton.mpr ⟨hq, hn⟩⟩
    · rintro ⟨q, hlen, rfl, hq⟩
      rcases List.eq_nil_or_concat q with rfl | ⟨q, n, rfl⟩
      · cases hlen
      rw [List.concat_eq_append] at hlen hq ⊢
      obtain ⟨hq, hn⟩ := reachable_append_singleton.mp hq
      refine ⟨_, ih.mpr ⟨q, by simpa using hlen, rfl, hq⟩, ?_⟩
      exact (mem_kids_iff (hq.namesOk hstart)).mpr ⟨n, hn, by rw [List.append_assoc]⟩

/-- A path of the search is a target when it has the inode. -/
theorem isTarget_iff (hstart : ∃ x, fs.at? start = some x) (hne : q ≠ [])
    (hq : fs.Reachable opens stats mounts targetDev start q) :
    (fs.env opens stats).isTarget targetIno (pathString (start ++ q)) ↔
      fs.Target opens stats mounts targetDev targetIno start q := by
  obtain rfl | ⟨q, n, rfl⟩ := List.eq_nil_or_concat q
  · exact absurd rfl hne
  rw [List.concat_eq_append] at hq ⊢
  obtain ⟨ino, t, ht⟩ := (reachable_append_singleton.mp hq).2.isDir
  have hstats := (reachable_append_singleton.mp hq).2.stats
  rw [List.append_assoc] at ht hstats
  have hst : (fs.env opens stats).lstat (pathString (start ++ (q ++ [n]))) = some ⟨true, targetDev, ino⟩ :=
    (lstat_eq_some (hq.namesOk hstart)).mpr ⟨hstats, t, ht⟩
  rw [DirEnv.isTarget, hst, Option.any_some, decide_eq_true_eq]
  constructor
  · rintro rfl
    exact ⟨by simp, hq, t, ht⟩
  · rintro ⟨-, -, t', ht'⟩
    have heq := Option.some.inj (ht.symm.trans ht')
    simpa using congrArg (fun x : Stat × Entries => x.1.ino) heq

/-- The search ends, and returns a path if and only if there is a target; it is the path of a target with
the fewest steps. It opens nothing that cannot be reached. -/
theorem bfsSearch_spec (fs : FileTree) (opens stats : Bytes → Bool) (mounts : List Bytes)
    (targetDev targetIno : ℕ) {start : List Bytes} (hstart : ∃ t, fs.at? start = some t) :
    ∃ fuel found, (fs.env opens stats).bfsSearch mounts targetDev targetIno fuel (pathString start) = some found ∧
      ((∃ p, found = some p) ↔ ∃ q, fs.Target opens stats mounts targetDev targetIno start q) ∧
      (∀ p, found = some p → ∃ q, p = pathString (start ++ q) ∧
        fs.Target opens stats mounts targetDev targetIno start q ∧
        ∀ q', fs.Target opens stats mounts targetDev targetIno start q' → q.length ≤ q'.length) ∧
      ∀ queue, Loop.Reaches ((fs.env opens stats).bfsRound mounts targetDev targetIno) [pathString start] queue →
        ∀ p ∈ queue, ∃ q, p = pathString (start ++ q) ∧ fs.Reachable opens stats mounts targetDev start q := by
  -- no level is deeper than the tree
  have hdeep : Bfs.level ((fs.env opens stats).kids mounts targetDev) (pathString start)
      (fs.entries.height + 1) = [] := List.eq_nil_iff_forall_not_mem.mpr fun p hp => by
    obtain ⟨q, hlen, -, hq⟩ := (mem_level_iff hstart).mp hp
    obtain ⟨x, hx⟩ := hq.exists_at hstart
    have hle := (lookup_spec fs.namesOk hx).2.2
    rw [List.length_append] at hle
    simp only at hle
    omega
  -- a target is a goal of the level its length gives
  have hgoal : ∀ q', fs.Target opens stats mounts targetDev targetIno start q' → ∃ k, q'.length = k + 1 ∧
      pathString (start ++ q') ∈ Bfs.level ((fs.env opens stats).kids mounts targetDev) (pathString start) (k + 1) ∧
      (fs.env opens stats).isTarget targetIno (pathString (start ++ q')) := fun q' hq' => by
    obtain ⟨k, hk⟩ := Nat.exists_eq_succ_of_ne_zero (mt List.length_eq_zero_iff.mp hq'.below)
    exact ⟨k, hk, (mem_level_iff hstart).mpr ⟨q', hk, rfl, hq'.reachable⟩,
      (isTarget_iff hstart hq'.below hq'.reachable).mpr hq'⟩
  obtain ⟨fuel, found, hrun⟩ : ∃ fuel found, Loop.run (Bfs.round _ ((fs.env opens stats).isTarget targetIno))
      fuel [pathString start] = some found := Bfs.exists_run hdeep
  have hfound : ∀ p, found = some p → ∃ q, p = pathString (start ++ q) ∧
      fs.Target opens stats mounts targetDev targetIno start q ∧
      ∀ q', fs.Target opens stats mounts targetDev targetIno start q' → q.length ≤ q'.length := by
    rintro p rfl
    obtain ⟨d, hp, hino, habove⟩ := Bfs.goal_of_run hrun
    obtain ⟨q, hlen, rfl, hq⟩ := (mem_level_iff hstart).mp hp
    have hne : q ≠ [] := by
      rintro rfl
      cases hlen
    refine ⟨q, rfl, (isTarget_iff hstart hne hq).mp hino, fun q' hq' => ?_⟩
    by_contra hlt
    obtain ⟨k, hk, hmem, hgoal'⟩ := hgoal q' hq'
    exact absurd hgoal' (by simp [habove k (by omega) _ hmem])
  refine ⟨fuel, found, by rw [DirEnv.bfsSearch, DirEnv.bfsRound_eq, hrun], ⟨?_, ?_⟩, hfound,
    fun queue hqueue p hp => ?_⟩
  · rintro ⟨p, hp⟩
    obtain ⟨q, -, hq, -⟩ := hfound p hp
    exact ⟨q, hq⟩
  · rintro ⟨q, hq⟩
    obtain ⟨k, -, hmem, hgoal'⟩ := hgoal q hq
    cases found with
    | some p => exact ⟨p, rfl⟩
    | none => exact absurd hgoal' (by simp [Bfs.no_goal_of_run hrun k hmem])
  · rw [DirEnv.bfsRound_eq] at hqueue
    obtain ⟨k, hk⟩ := Bfs.mem_level_of_reaches hqueue hp
    obtain ⟨q, -, rfl, hq⟩ := (mem_level_iff hstart).mp hk
    exact ⟨q, rfl, hq⟩

end Search

/-- `/m` with the bind mount `/m/b`, the mount `/m/c` of another device, and `/m/d/e`; `/m/b/e` and `/m/d/e`
are the same directory. -/
def sampleTree : FileTree where
  dev := 1
  ino := 2
  entries := .dir [109] 1 3
    (.dir [98] 1 4 (.dir [101] 1 9 .nil .nil) (.dir [99] 2 2 .nil (.other [102] 1 9
      (.dir [100] 1 4 (.dir [101] 1 9 .nil .nil) .nil)))) .nil
  namesOk := by decide

/-- In it the search for the inode 9 finds a path. -/
theorem bfsSearch_spec_sample : ∃ fuel p, (sampleTree.env (fun _ => true) fun _ => true).bfsSearch [[47, 109, 47, 98]]
    1 9 fuel (pathString [[109]]) = some (some p) := by
  have hstart : ∃ t, sampleTree.at? [[109]] = some t := ⟨_, rfl⟩
  obtain ⟨fuel, found, hrun, hiff, -⟩ := bfsSearch_spec sampleTree (fun _ => true) (fun _ => true)
    [[47, 109, 47, 98]] 1 9 hstart
  have hreach : sampleTree.Reachable (fun _ => true) (fun _ => true) [[47, 109, 47, 98]] 1 [[109]]
      ([] ++ [[100]] ++ [[101]]) :=
    reachable_append_singleton.mpr ⟨reachable_append_singleton.mpr
      ⟨reachable_nil, rfl, rfl, ⟨4, _, rfl⟩, by decide⟩, rfl, rfl, ⟨9, _, rfl⟩, by decide⟩
  obtain ⟨p, rfl⟩ := hiff.mpr ⟨_, by simp, hreach, _, rfl⟩
  exact ⟨fuel, p, hrun⟩

end FileTree

end DeepinAnything
