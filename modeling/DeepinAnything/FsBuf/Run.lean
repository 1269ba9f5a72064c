import DeepinAnything.FsBuf.EmptyRoot
import DeepinAnything.FsBuf.Rename
import DeepinAnything.FsBuf.WellFormed
import DeepinAnything.Walkdir.Build

/-!
# Runs of edits

A buffer starts empty or filled from the file system, and is then edited by calls of `insert_path`,
`remove_path` and `rename_path` in any order. Three kinds of call can damage the image: an insertion
into a root without entries, a rename whose second half meets such a root, and a rename that does
not find its destination again to put the subtree back. Without them the image stays well formed.
-/

namespace DeepinAnything

open ByteMem OrderedForest OrderedForest.Forest

/-! ## Calls -/

/-- A call of one of the three editing functions, with what the allocator answers to it. -/
inductive Call where
  | insert (realloc : ℕ → Bool) (path : CPath) (isDir : Bool) (change : FsChange)
  | remove (path : CPath) (changes : List FsChange)
  | rename (heap : Heap) (src dst : CPath) (changes : List FsChange)

/-- The result of a call and the buffer it leaves. -/
def FsBuf.call (b : FsBuf) : Call → Option (Ret × FsBuf)
  | .insert realloc path isDir change =>
    (b.insertPath realloc path.bytes isDir change).map fun (ret, b, _) => (ret, b)
  | .remove path changes => (b.removePath path.bytes changes).map fun (ret, b, _) => (ret, b)
  | .rename heap src dst changes =>
    (b.renamePath heap src.bytes dst.bytes changes).map fun (ret, b, _) => (ret, b)

/-- An insertion does not put an entry into a root without entries: there are some, or the parent is
not the root, or the buffer cannot grow. -/
def InsertSafe (b : FsBuf) (realloc : ℕ → Bool) (path : Bytes) (isDir : Bool) : Prop :=
  b.tail = b.firstNameOff → ∀ parent name, strrchrSlash path = some (parent, name) → name ≠ [] →
    b.getPathOffset parent = dataStart → GrowthFails b realloc (FsBuf.newEntrySize name isDir)

/-- A rename is refused by its checks, has no memory for the copy of the subtree, or moves an entry
whose destination can be inserted and found again. -/
def RenameCallSafe (b : FsBuf) (heap : Heap) (src dst : Bytes) : Prop :=
  b.RenameAccepted src dst → ∀ root t, Represents b root t →
    (resolve root t src = some [] ∧ heap.malloc (treeSize t) = false) ∨
    ∃ q n e, resolve root t src = some (q ++ [n]) ∧ t.entryAt (q ++ [n]) = some e ∧
      (e.kids ≠ .nil ∧ heap.malloc (treeSize e.kids) = false ∨
        RenameSafe b root heap.realloc dst (decide (b.getPathOffset dst ≠ 0)) e (t.remove q n))

/-- The calls that keep an image well formed. -/
def CallSafe (b : FsBuf) : Call → Prop
  | .insert realloc path isDir _ => InsertSafe b realloc path.bytes isDir
  | .remove _ _ => True
  | .rename heap src dst _ => RenameCallSafe b heap src.bytes dst.bytes

/-- The builds in which no append is refused for want of memory. -/
def BuildSafe (env : WalkEnv) (fuel : ℕ) (b : FsBuf) : Prop := (env.buildFstree fuel b).2.2.failed = false

/-- The buffers that runs reach: `new_fs_buf`, perhaps a `build_fstree` that was not cancelled, and
calls, the build and each call subject to a condition. -/
inductive Reachable (okBuild : WalkEnv → ℕ → FsBuf → Prop) (okCall : FsBuf → Call → Prop) :
    FsBuf → Prop
  | new {fresh : Option Mem} {capacity : ℕ} {root : CPath} {b : FsBuf}
      (hnew : newFsBuf fresh capacity root.bytes = some b) : Reachable okBuild okCall b
  | built {fresh : Option Mem} {capacity : ℕ} {root : CPath} {b b' : FsBuf} {env : WalkEnv} {fuel : ℕ}
      {pr : ProgressReport} (hnew : newFsBuf fresh capacity root.bytes = some b) (hsane : env.Sane)
      (hbuild : env.buildFstree fuel b = (some false, b', pr)) (hok : okBuild env fuel b) :
      Reachable okBuild okCall b'
  | call {b b' : FsBuf} {c : Call} {ret : Ret} (hb : Reachable okBuild okCall b) (hok : okCall b c)
      (hcall : b.call c = some (ret, b')) : Reachable okBuild okCall b'

/-! ## One call -/

/-- The trees that a safe call can make of `t`. A rename leaves `t`, or the tree between its two halves, or
that with the subtree of the source at the destination. -/
def Call.Yields (b : FsBuf) (root : Bytes) (t t' : Tree) : Call → Prop
  | .insert _ path isDir _ => t' = t ∨
    ∃ q k name, insertTarget root t path.bytes = .ok (q, k, name) ∧ t' = t.insert q name (newEntry isDir)
  | .remove path _ => t' = t ∨ t' = .nil ∨
    ∃ q n e, resolve root t path.bytes = some (q ++ [n]) ∧ t.entryAt (q ++ [n]) = some e ∧ t' = t.remove q n
  | .rename heap src dst _ => t' = t ∨ b.RenameAccepted src.bytes dst.bytes ∧
    ∃ q n e mid, resolve root t src.bytes = some (q ++ [n]) ∧ t.entryAt (q ++ [n]) = some e ∧
      mid = renameMid b root heap.realloc dst.bytes e.isNode (decide (b.getPathOffset dst.bytes ≠ 0))
        (t.remove q n) ∧
      (t' = mid ∨ ∃ q', resolve root mid dst.bytes = some q' ∧ mid.entryAt q' = some (.node .nil) ∧
        t' = mid.setKids q' e.kids)

variable {b : FsBuf} {root : Bytes} {t : Tree}

theorem Represents.insert_call (h : Represents b root t) {realloc : ℕ → Bool} {path : CPath}
    {isDir : Bool} (hsafe : InsertSafe b realloc path.bytes isDir) (change : FsChange) :
    ∃ ret b' t', b.call (.insert realloc path isDir change) = some (ret, b') ∧ Represents b' root t' ∧
      Call.Yields b root t t' (.insert realloc path isDir change) := by
  rw [FsBuf.call]
  cases htarget : insertTarget root t path.bytes with
  | error ret =>
    rw [FsBuf.insertPath_error h htarget realloc isDir change]
    exact ⟨ret, b, t, rfl, h, .inl rfl⟩
  | ok p =>
    obtain ⟨q, k, name⟩ := p
    by_cases ht : t = .nil
    · obtain ⟨parent, hsplit, hname, hres, hentry, -⟩ := insertTarget_eq_ok htarget
      obtain ⟨hok, hlen⟩ := path.nameOk hsplit hname
      obtain ⟨c, hplug, -, -, hoff⟩ := h.exists_plug_of_resolve hres hentry
      subst ht
      cases c with
      | nil =>
        have hfails := hsafe (h.tail_eq_first_iff.mpr rfl) parent name hsplit hname hoff
        rcases FsBuf.doInsertPath_emptyRoot h hsplit hok hlen hoff realloc isDir change with
          ⟨-, heq⟩ | ⟨hnot, -⟩
        · rw [FsBuf.insertPath, heq]
          exact ⟨_, b, .nil, rfl, h, .inl rfl⟩
        · exact absurd hfails hnot
      | cons f c =>
        exact absurd hplug.symm (plug_cons_ne_nil f c k)
    · rcases FsBuf.insertPath_ok h ht htarget realloc isDir change with
        ⟨-, heq⟩ | ⟨-, b', off, heq, hrep⟩
      · rw [heq]
        exact ⟨_, b, t, rfl, h, .inl rfl⟩
      · rw [heq]
        exact ⟨_, b', _, rfl, hrep, .inr ⟨q, k, name, htarget, rfl⟩⟩

theorem Represents.remove_call (h : Represents b root t) (path : CPath) (changes : List FsChange) :
    ∃ ret b' t', b.call (.remove path changes) = some (ret, b') ∧ Represents b' root t' ∧
      Call.Yields b root t t' (.remove path changes) := by
  rw [FsBuf.call]
  rcases FsBuf.removePath_cases h path.bytes changes with
    ⟨-, heq⟩ | ⟨-, b', changes', heq, hrep, -⟩ | ⟨q, n, hres, b', changes', heq, hrep, -⟩
  · exact ⟨_, b, t, by rw [heq]; rfl, h, .inl rfl⟩
  · exact ⟨_, b', _, by rw [heq]; rfl, hrep, .inr (.inl rfl)⟩
  · have hsome := (Option.filter_eq_some_iff.mp hres).2
    obtain ⟨e, hentry⟩ := Option.isSome_iff_exists.mp hsome
    exact ⟨_, b', _, by rw [heq]; rfl, hrep, .inr (.inr ⟨q, n, e, hres, hentry, rfl⟩)⟩

theorem Represents.rename_call (h : Represents b root t) {heap : Heap} {src dst : CPath}
    (hsafe : RenameCallSafe b heap src.bytes dst.bytes) (changes : List FsChange) :
    ∃ ret b' t', b.call (.rename heap src dst changes) = some (ret, b') ∧ Represents b' root t' ∧
      Call.Yields b root t t' (.rename heap src dst changes) := by
  rw [FsBuf.call]
  rcases FsBuf.doRenamePath_cases b heap src.bytes dst.bytes changes with
    ⟨-, ret, -, heq⟩ | ⟨hok, heq⟩
  · exact ⟨ret, b, t, by rw [FsBuf.renamePath, heq]; rfl, h, .inl rfl⟩
  rcases hsafe hok root t h with ⟨hroot, hmalloc⟩ | ⟨q, n, e, hres, hentry, hcase⟩
  · -- the root cannot be copied
    have hoff : b.getPathOffset src.bytes = dataStart := by
      rcases h.lookup_cases src.bytes with ⟨hnone, -⟩ | ⟨-, hoff⟩ | ⟨c, l, r, n, e, -, -, -, hat, -⟩
      · simp [hnone] at hroot
      · exact hoff
      · simp [hat] at hroot
    have hsize : subU32 b.tail b.firstNameOff = treeSize t := by
      have htail := h.tail_eq
      have hmax := h.sized.tail_le_max
      rw [subU32_of_le (by omega) (by omega)]
      omega
    have hremove : b.doRemovePath heap.malloc src.bytes changes true = some (.noMem, b, changes, none) := by
      rw [FsBuf.doRemovePath, hoff]
      simp [dataStart, FsBuf.copyTree, hsize, hmalloc]
    refine ⟨.noMem, b, t, ?_, h, .inl rfl⟩
    rw [FsBuf.renamePath, heq, FsBuf.moveEntry, hremove]
    rfl
  · rcases FsBuf.renamePath_entry h hres hentry heap hok changes rfl with
      ⟨-, -, hfail⟩ | ⟨hmem, hmove⟩
    · exact ⟨_, b, t, by rw [hfail]; rfl, h, .inl rfl⟩
    rcases hcase with hnomem | hsafe
    · exact absurd hnomem hmem
    obtain ⟨ret, b', changes', t', hret, hrep, hleaf, htree, hstop⟩ := hmove hsafe
    refine ⟨ret, b', t', by rw [hret]; rfl, hrep, ?_⟩
    by_cases hdone : ret = .ok
    · refine .inr ⟨hok, q, n, e, _, hres, hentry, rfl, ?_⟩
      by_cases hk : e.kids = .nil
      · exact .inl (hleaf hdone hk)
      · obtain ⟨q', hres', rfl⟩ := htree hdone hk
        obtain ⟨q'', -, hres'', hentry'⟩ := hsafe.found hk
        obtain rfl : q'' = q' := Option.some.inj (hres''.symm.trans hres')
        exact .inr ⟨q'', hres', hentry', rfl⟩
    · rcases hstop hdone with rfl | hmid
      · exact .inl rfl
      · exact .inr ⟨hok, q, n, e, _, hres, hentry, rfl, .inl hmid⟩

/-- A safe call returns, and leaves the image of a tree. -/
theorem Represents.call (h : Represents b root t) {c : Call} (hsafe : CallSafe b c) :
    ∃ ret b' t', b.call c = some (ret, b') ∧ Represents b' root t' ∧ c.Yields b root t t' := by
  cases c with
  | insert realloc path isDir change => exact h.insert_call hsafe change
  | remove path changes => exact h.remove_call path changes
  | rename heap src dst changes => exact h.rename_call hsafe changes

/-! ## Runs -/

theorem represents_of_build {fresh : Option Mem} {capacity fuel : ℕ} {root : CPath} {b b' : FsBuf}
    {env : WalkEnv} {pr : ProgressReport} (hnew : newFsBuf fresh capacity root.bytes = some b)
    (hsane : env.Sane) (hbuild : env.buildFstree fuel b = (some false, b', pr))
    (hok : BuildSafe env fuel b) : ∃ t, Represents b' root.bytes t := by
  have h := represents_newFsBuf hnew root.zero
  have hpatient := WalkEnv.buildFstree_patient hbuild
  rw [BuildSafe, hbuild] at hok
  have hsane' : env.patient.Sane := hsane
  rcases WalkEnv.buildFstree_spec hsane' (fun _ _ _ _ => rfl) h fuel hpatient with
    ⟨hnone, -⟩ | ⟨t, -, -, -, hrep⟩ | ⟨hfailed, -⟩
  · simp at hnone
  · exact ⟨t, hrep⟩
  · exact absurd (hok.symm.trans hfailed) (by simp)

/-- In a run of safe builds and calls every buffer is the image of a tree. -/
theorem Reachable.represents (h : Reachable BuildSafe CallSafe b) : ∃ root t, Represents b root t := by
  induction h with
  | new hnew =>
    rename_i root b
    exact ⟨root.bytes, .nil, represents_newFsBuf hnew root.zero⟩
  | built hnew hsane hbuild hok =>
    obtain ⟨t, hrep⟩ := represents_of_build hnew hsane hbuild hok
    exact ⟨_, t, hrep⟩
  | call _ hok hcall ih =>
    obtain ⟨root, t, hrep⟩ := ih
    obtain ⟨ret, b', t', heq, hrep', -⟩ := hrep.call hok
    rw [hcall, Option.some.injEq, Prod.mk.injEq] at heq
    obtain ⟨-, rfl⟩ := heq
    exact ⟨root, t', hrep'⟩

/-- In a run of safe builds and calls the image stays well formed, and every safe call returns. -/
theorem Reachable.wellFormed (h : Reachable BuildSafe CallSafe b) :
    WellFormed b ∧ ∀ c, CallSafe b c → ∃ ret b', b.call c = some (ret, b') := by
  obtain ⟨root, t, hrep⟩ := h.represents
  refine ⟨hrep.wellFormedImage, fun c hc => ?_⟩
  obtain ⟨ret, b', t', heq, -⟩ := hrep.call hc
  exact ⟨ret, b', heq⟩

/-- A file system with a directory `d` and a file `a`. -/
def sampleEnv : WalkEnv where
  shouldSkipPath _ := false
  opendir p := if p = [slash] then some [⟨[100], .dir⟩, ⟨[97], .reg⟩] else none
  pcf _ _ _ _ := false
  realloc _ := false

/-- The root path `/`. -/
def slashPath : CPath := ⟨[slash], by decide, by decide⟩

theorem sampleEnv_sane : sampleEnv.Sane := by
  intro p des h
  simp only [sampleEnv] at h
  split at h
  · obtain rfl := Option.some.inj h
    decide
  · simp at h

theorem sampleEnv_build : ∃ b b' pr, newFsBuf (some ⟨fun _ => 0⟩) (2 ^ 21) [slash] = some b ∧
    sampleEnv.buildFstree 2 b = (some false, b', pr) ∧ BuildSafe sampleEnv 2 b ∧
    Represents b' [slash] (.node [100] .nil (.leaf [97] .nil)) := by
  obtain ⟨b, hnew, hcapacity⟩ : ∃ b, newFsBuf (some ⟨fun _ => 0⟩) (2 ^ 21) [slash] = some b ∧
      b.capacity = 2 ^ 21 := ⟨_, rfl, rfl⟩
  have h := represents_newFsBuf hnew (by decide)
  have htree : sampleEnv.walkTree walkPath 2 [slash] =
      some (.node [100] .nil (.leaf [97] .nil)) := by decide
  have hroom : b.tail + treeSize (.node [100] .nil (.leaf [97] .nil)) < b.capacity := by
    rw [h.tail_eq, h.first_eq, hcapacity]
    decide
  have hsafe := WalkEnv.buildFstree_of_room sampleEnv_sane (fun _ _ _ _ => rfl) h htree hroom 2
  rcases WalkEnv.buildFstree_spec sampleEnv_sane (fun _ _ _ _ => rfl) h 2 rfl with
    ⟨-, hnone, -⟩ | ⟨t, ht, hc, -, hrep⟩ | ⟨hfailed, -⟩
  · simp [htree] at hnone
  · obtain rfl := Option.some.inj (ht.symm.trans htree)
    exact ⟨b, _, _, hnew, Prod.ext hc rfl, hsafe, hrep⟩
  · exact absurd (hsafe.symm.trans hfailed) (by simp)

/-- A build, an insertion of `/b` and a removal of `/d`. -/
theorem Reachable.wellFormed_sample : ∃ b b' ret b'' ret', Reachable BuildSafe CallSafe b ∧
    b.call (.insert (fun _ => true) ⟨[47, 98], by decide, by decide⟩ false ⟨0, 0⟩) = some (ret, b') ∧
    b'.call (.remove ⟨[47, 100], by decide, by decide⟩ []) = some (ret', b'') ∧ WellFormed b'' := by
  obtain ⟨b₀, b, pr, hnew, hbuild, hsafe, hrep⟩ := sampleEnv_build
  have hb : Reachable BuildSafe CallSafe b :=
    .built (show newFsBuf _ _ slashPath.bytes = _ from hnew) sampleEnv_sane hbuild hsafe
  have hinsert : CallSafe b (.insert (fun _ => true) ⟨[47, 98], by decide, by decide⟩ false ⟨0, 0⟩) := by
    intro hempty
    exact absurd (hrep.tail_eq_first_iff.mp hempty) (by simp)
  obtain ⟨ret, b', -, hcall, -⟩ := hrep.call hinsert
  have hb' : Reachable BuildSafe CallSafe b' := .call hb hinsert hcall
  have hremove : CallSafe b' (.remove ⟨[47, 100], by decide, by decide⟩ []) := trivial
  obtain ⟨ret', b'', hcall'⟩ := (Reachable.wellFormed hb').2 _ hremove
  exact ⟨b, b', ret, b'', ret', hb, hcall, hcall', (Reachable.wellFormed (.call hb' hremove hcall')).1⟩

/-! ## A run that damages the image -/

/-- `/a` inserted behind `new_fs_buf`: the entry takes three bytes and no parent tag follows. -/
theorem insert_emptyRoot_not_wellFormed : ∃ b b',
    newFsBuf (some ⟨fun _ => 0⟩) (2 ^ 21) [slash] = some b ∧
    b.call (.insert (fun _ => true) ⟨[47, 97], by decide, by decide⟩ false ⟨0, 0⟩) = some (.ok, b') ∧
    Reachable (fun _ _ _ => True) (fun _ _ => True) b' ∧ ¬ WellFormed b' := by
  obtain ⟨b, hnew, hcapacity⟩ : ∃ b, newFsBuf (some ⟨fun _ => 0⟩) (2 ^ 21) [slash] = some b ∧
      b.capacity = 2 ^ 21 := ⟨_, rfl, rfl⟩
  have h := represents_newFsBuf hnew (by decide)
  have htail := h.tail_eq
  have hfirst := h.first_eq
  rw [treeSize_nil, Nat.add_zero] at htail
  have hres : resolve [slash] .nil [] = some [] := by decide
  have hoff : b.getPathOffset [] = dataStart := by
    rcases h.lookup_cases [] with ⟨hnone, -⟩ | ⟨-, hoff⟩ | ⟨c, l, r, n, e, -, -, -, hat, -⟩
    · simp [hres] at hnone
    · exact hoff
    · simp [hres] at hat
  rcases FsBuf.doInsertPath_emptyRoot h (show strrchrSlash [47, 97] = some ([], [97]) by decide)
      (by decide : NameOk [97])
    (by decide) hoff (fun _ => true) false ⟨0, 0⟩ with ⟨hfails, -⟩ | ⟨-, b', change', heq, -, hf', ht', -⟩
  · have hsmall := hfails.1
    rw [htail, hfirst, hcapacity] at hsmall
    exact absurd hsmall (by decide)
  have hcall : b.call (.insert (fun _ => true) ⟨[47, 97], by decide, by decide⟩ false ⟨0, 0⟩) =
      some (.ok, b') := by
    rw [FsBuf.call, FsBuf.insertPath, heq]
    rfl
  refine ⟨b, b', hnew, hcall, .call (.new (show newFsBuf _ _ slashPath.bytes = _ from hnew)) trivial hcall,
    fun hwf => ?_⟩
  have hsize : FsBuf.newEntrySize [97] false = 3 := rfl
  rcases hwf.tail_cases with hempty | hlong <;> omega

end DeepinAnything
