import DeepinAnything.FsBuf.FileEvent
import DeepinAnything.Walkdir.Cut

/-!
# The files that a walk is shown

Below a root there are files, symbolic links and directories, and `opendir` and `readdir` show them. As long as no
path of a directory is cut, the walk finds just these, and takes for a directory what is one itself: `d_type` does not
follow a link.
-/

namespace DeepinAnything

open ByteMem OrderedForest OrderedForest.Forest

/-- What can stand at a path. -/
inductive FileKind where
  | file
  | symlink
  | dir
deriving DecidableEq, Repr

/-- What `readdir` says of it. -/
def FileKind.dType : FileKind → DType
  | file => .reg
  | symlink => .lnk
  | dir => .dir

/-- What stands at the names below the root of a file system. -/
abbrev Files := List Bytes → Option FileKind

namespace Files

/-- The files as an index has them. -/
def shape (fs : Files) : Shape := fun q => (fs q).map fun k => decide (k = .dir)

/-- The root is a directory, and everything else is in one. -/
structure Closed (fs : Files) : Prop where
  root : fs [] = some .dir
  parent : ∀ q x, (fs (q ++ [x])).isSome → fs q = some .dir

/-- The entry is that of a file in the directory `q`. -/
def Has (fs : Files) (q : List Bytes) (de : Dirent) : Prop :=
  ∃ k : FileKind, fs (q ++ [de.name]) = some k ∧ de.type = k.dType

/-- The entries that are not left out are those of the directory `q`. -/
def Lists (fs : Files) (q : List Bytes) (des : List Dirent) : Prop :=
  ∀ de, de ∈ des ∧ de.isSkipped = false ↔ fs.Has q de

end Files

/-- The path that leads from `p` to a file. -/
def pathOf (p : Bytes) (q : List Bytes) : Bytes := if q = [] then p else entryPath p (joinPath q)

/-- The walk finds the entry in the directory with this path, which it does not leave out. -/
def WalkEnv.Meets (env : WalkEnv) (p : Bytes) (de : Dirent) : Prop :=
  env.shouldSkipPath p = false ∧ ∃ des, env.opendir p = some des ∧ de ∈ des ∧ de.isSkipped = false

/-- The walk finds the files below `p`, and no path of a directory is cut. -/
structure WalkEnv.Shows (env : WalkEnv) (p : Bytes) (fs : Files) : Prop where
  sane : env.Sane
  short : ∀ q, fs q = some .dir → (pathOf p q).length ≤ pathMax - 2
  lists : ∀ q, fs q = some .dir → ∀ de, env.Meets (pathOf p q) de ↔ fs.Has q de

theorem FileKind.dType_eq_dir (k : FileKind) : k.dType = .dir ↔ k = .dir := by
  cases k <;> simp [dType]

theorem pathOf_cons {p n : Bytes} (hn : NameOk n) (q : List Bytes) :
    pathOf p (n :: q) = pathOf (entryPath p n) q := by
  rw [pathOf, pathOf, if_neg (List.cons_ne_nil n q)]
  by_cases hq : q = []
  · rw [if_pos hq, hq, joinPath_singleton]
  · rw [if_neg hq, entryPath_cons hn hq]

namespace Files

variable {fs : Files} {q : List Bytes}

theorem shape_eq_some_true : fs.shape q = some true ↔ fs q = some .dir := by
  simp [shape]

theorem isSome_shape : (fs.shape q).isSome = (fs q).isSome := by
  simp [shape]

theorem Lists.congr {fs' : Files} {des : List Dirent} (h : fs.Lists q des)
    (heq : ∀ x, fs' (q ++ [x]) = fs (q ++ [x])) : fs'.Lists q des := fun de => by
  rw [h de, Has, Has, heq]

/-- What something lies below is a directory. -/
theorem Closed.above (h : fs.Closed) {r : List Bytes} (hr : r ≠ []) (hthere : (fs (q ++ r)).isSome) :
    fs q = some .dir := by
  induction r using List.reverseRecOn with
  | nil => exact absurd rfl hr
  | append_singleton r x ih =>
    rw [← List.append_assoc] at hthere
    have hdir := h.parent _ _ hthere
    by_cases hnil : r = []
    · rwa [hnil, List.append_nil] at hdir
    · exact ih hnil (by rw [hdir]; rfl)

/-- The files below a directory. -/
theorem Closed.below (h : fs.Closed) {n : Bytes} (hn : fs [n] = some .dir) : Closed fun q => fs (n :: q) :=
  ⟨hn, fun q => h.parent (n :: q)⟩

/-- The files of a tree. -/
theorem closed_of_shape {t : Tree} (h : t.kindAt = fs.shape) : fs.Closed := by
  refine ⟨?_, fun q x hthere => ?_⟩
  · rw [← shape_eq_some_true, ← h, kindAt_nil]
  · rw [← isSome_shape, ← h, isSome_kindAt] at hthere
    obtain ⟨k, hk, -⟩ := exists_node_of_entryAt_append (List.cons_ne_nil x []) hthere
    rw [← shape_eq_some_true, ← h, kindAt, hk]
    rfl

end Files

/-! ## Listings -/

/-- A listing has the entries that are not left out. -/
theorem find?_listTree {des : List Dirent} (hnodup : (des.map Dirent.name).Nodup) {x : Bytes} {isDir : Bool} :
    (listTree des).find? x = some (newEntry isDir) ↔
      ∃ de ∈ des, de.isSkipped = false ∧ de.name = x ∧ decide (de.type = .dir) = isDir := by
  induction des with
  | nil => simp [listTree, find?]
  | cons de des ih =>
    obtain ⟨hnew, hrest⟩ := List.nodup_cons.mp hnodup
    rw [listTree]
    by_cases hskip : de.isSkipped = true
    · rw [if_pos hskip, ih hrest]
      simp [hskip]
    · rw [if_neg hskip, find?_cons]
      by_cases hx : de.name = x
      · -- no later entry has the name
        have hother : ¬ ∃ de' ∈ des, de'.isSkipped = false ∧ de'.name = x ∧ decide (de'.type = .dir) = isDir := by
          rintro ⟨de', hmem, -, hname, -⟩
          exact hnew (hx ▸ hname ▸ List.mem_map_of_mem hmem)
        rw [if_pos hx]
        simp only [List.mem_cons, exists_eq_or_imp, hother, or_false, Bool.not_eq_true] at hskip ⊢
        rw [Option.some.injEq]
        constructor
        · intro heq
          refine ⟨hskip, hx, ?_⟩
          cases isDir <;> cases hdir : decide (de.type = .dir) <;> simp [newEntry, hdir] at heq ⊢
        · rintro ⟨-, -, hdir⟩
          rw [hdir]
      · rw [if_neg hx, ih hrest]
        simp [hx]

/-- What stands in a listing is an entry without what is below it. -/
theorem find?_listTree_cases {des : List Dirent} {x : Bytes} {e : Entry Bytes}
    (h : (listTree des).find? x = some e) : ∃ isDir, e = newEntry isDir := by
  induction des with
  | nil => simp [listTree, find?] at h
  | cons de des ih =>
    rw [listTree] at h
    split at h
    · exact ih h
    · rw [find?_cons] at h
      split at h
      · exact ⟨_, (Option.some.inj h).symm⟩
      · exact ih h

/-- The siblings with what is found below them are those of the listing. -/
theorem find?_of_fillKids {f : Bytes → Option Tree} {r t : Tree} (h : fillKids f r = some t) (x : Bytes) :
    (r.find? x = none → t.find? x = none) ∧ (r.find? x = some .leaf → t.find? x = some .leaf) ∧
      ∀ k₀, r.find? x = some (.node k₀) → ∃ k, f x = some k ∧ t.find? x = some (.node k) := by
  induction r generalizing t with
  | nil =>
    obtain rfl : Forest.nil = t := by simpa [fillKids] using h
    simp [find?]
  | leaf n r ih =>
    obtain ⟨s, hs, rfl⟩ := fillKids_leaf_eq_some.mp h
    by_cases hn : n = x
    · simp [find?, hn]
    · simpa [find?, hn] using ih hs
  | node n k₀ r _ ih =>
    obtain ⟨k, s, hk, hs, rfl⟩ := fillKids_node_eq_some.mp h
    by_cases hn : n = x
    · subst hn
      simp [find?, hk]
    · simpa [find?, hn] using ih hs

namespace WalkEnv

variable {env : WalkEnv} {p : Bytes} {fs : Files}

/-- A walk sees a name in a directory that it opens. -/
theorem find?_listing_eq_some (hsane : env.Sane) {x : Bytes} {isDir : Bool} :
    (env.listing p).find? x = some (newEntry isDir) ↔
      ∃ de, env.Meets p de ∧ de.name = x ∧ decide (de.type = .dir) = isDir := by
  rw [listing]
  by_cases hskip : env.shouldSkipPath p = true
  · simp [hskip, Meets, find?]
  · rw [if_neg hskip]
    cases hopen : env.opendir p with
    | none => simp [Meets, hopen, find?]
    | some des =>
      rw [find?_listTree (hsane _ _ hopen).1]
      simp only [Meets, hopen, Option.some.injEq, exists_eq_left', Bool.not_eq_true] at hskip ⊢
      simp only [hskip, true_and, and_assoc]

theorem find?_listing_cases {x : Bytes} {e : Entry Bytes} (h : (env.listing p).find? x = some e) :
    ∃ isDir, e = newEntry isDir := by
  rw [listing] at h
  split at h
  · cases h
  · split at h
    · cases h
    · exact find?_listTree_cases h

/-- What a walk is shown of a name: nothing, or an entry of its kind. -/
theorem Shows.find?_listing (h : env.Shows p fs) (hroot : fs [] = some .dir) (x : Bytes) :
    (env.listing p).find? x = (fs [x]).map fun k => newEntry (decide (k = .dir)) := by
  have hlists := h.lists [] hroot
  cases hk : fs [x] with
  | some k =>
    refine (find?_listing_eq_some h.sane).mpr ⟨⟨x, k.dType⟩, (hlists _).mpr ⟨k, hk, rfl⟩, rfl, ?_⟩
    exact decide_eq_decide.mpr k.dType_eq_dir
  | none =>
    cases hfind : (env.listing p).find? x with
    | none => rfl
    | some e =>
      obtain ⟨isDir, rfl⟩ := find?_listing_cases hfind
      obtain ⟨de, hmeets, rfl, -⟩ := (find?_listing_eq_some h.sane).mp hfind
      obtain ⟨k, hk', -⟩ := (hlists de).mp hmeets
      rw [List.nil_append, hk] at hk'
      cases hk'

/-- What is shown has a name. -/
theorem Shows.nameOk (h : env.Shows p fs) (hroot : fs [] = some .dir) {x : Bytes} {k : FileKind}
    (hk : fs [x] = some k) : NameOk x := by
  obtain ⟨-, des, hopen, hmem, -⟩ := (h.lists [] hroot ⟨x, k.dType⟩).mpr ⟨k, hk, rfl⟩
  exact ((h.sane _ _ hopen).2 _ hmem).1

/-- The files of a directory are shown below its path. -/
theorem Shows.below (h : env.Shows p fs) {n : Bytes} (hn : NameOk n) :
    env.Shows (entryPath p n) fun q => fs (n :: q) := by
  refine ⟨h.sane, fun q hq => ?_, fun q hq => ?_⟩
  · rw [← pathOf_cons hn]
    exact h.short _ hq
  · rw [← pathOf_cons hn]
    exact h.lists _ hq

/-- The walk finds the files that it is shown. -/
theorem Shows.kindAt_walkTree (h : env.Shows p fs) (hclosed : fs.Closed) {w : Tree} {fuel : ℕ}
    (hw : env.walkTree walkPath fuel p = some w) : w.kindAt = fs.shape := by
  induction fuel generalizing p fs w with
  | zero => simp [walkTree] at hw
  | succ fuel ih =>
    rw [walkTree] at hw
    funext q
    cases q with
    | nil => rw [kindAt_nil, Files.shape, hclosed.root]; rfl
    | cons x xs =>
      have hlisting := h.find?_listing hclosed.root x
      obtain ⟨hnone, hleaf, hnode⟩ := find?_of_fillKids hw x
      have habove : xs ≠ [] → fs [x] ≠ some .dir → fs (x :: xs) = none := fun hxs hnot => by
        by_contra hthere
        exact hnot (hclosed.above (q := [x]) hxs (Option.isSome_iff_ne_none.mpr hthere))
      rw [kindAt_cons, Files.shape]
      cases hk : fs [x] with
      | none =>
        rw [hk] at hlisting
        rw [hnone hlisting]
        by_cases hxs : xs = []
        · rw [hxs, hk]
          rfl
        · rw [habove hxs (by simp [hk])]
          rfl
      | some k =>
        rw [hk] at hlisting
        by_cases hdir : k = .dir
        · -- a directory, and what is below it
          rw [hdir] at hk hlisting
          obtain ⟨kids, hwalk, hfound⟩ := hnode .nil hlisting
          have hshort := h.short [x] hk
          rw [pathOf, if_neg (List.cons_ne_nil x []), joinPath_singleton] at hshort
          rw [walkPath_of_le hshort] at hwalk
          rw [hfound]
          by_cases hxs : xs = []
          · simp [hxs, hk, Entry.isNode]
          · simp only [hxs, if_false, Entry.kids]
            rw [ih (h.below (h.nameOk hclosed.root hk)) (hclosed.below hk) hwalk]
            rfl
        · rw [hleaf (by simpa [hdir, newEntry] using hlisting)]
          by_cases hxs : xs = []
          · simp [hxs, hk, hdir, Entry.isNode]
          · rw [habove hxs (by simp [hk, hdir])]
            cases xs with
            | nil => exact absurd rfl hxs
            | cons y ys => rfl

/-- A build that is not cancelled and runs out of no memory ends with an index of the files that it is shown. -/
theorem Shows.exists_represents (h : env.Shows p fs) (hclosed : fs.Closed) {fresh : Option Mem} {capacity fuel : ℕ}
    {b b' : FsBuf} {pr' : ProgressReport} (hnew : newFsBuf fresh capacity p = some b) (hzero : (0 : UInt8) ∉ p)
    (hbuild : env.buildFstree fuel b = (some false, b', pr')) (hok : pr'.failed = false) :
    ∃ w, Represents b' p w ∧ w.kindAt = fs.shape := by
  have hshows : env.patient.Shows p fs := ⟨h.sane, h.short, h.lists⟩
  have hempty := represents_newFsBuf hnew hzero
  rcases buildFstree_spec hshows.sane (fun _ _ _ _ => rfl) hempty fuel (buildFstree_patient hbuild) with
    ⟨hnone, -⟩ | ⟨w, hw, -, -, hrep⟩ | ⟨hfailed, -⟩
  · cases hnone
  · exact ⟨w, hrep, hshows.kindAt_walkTree hclosed hw⟩
  · rw [hok] at hfailed
    cases hfailed

end WalkEnv

end DeepinAnything
