import DeepinAnything.FsBuf.AllOrNothing

/-!
# Paths and the buffers that take them

Every caller of `get_path_by_name_off` passes a buffer of `PATH_MAX` bytes, and the path is written from its
end backwards without a look at its start. An insertion cannot make a path longer than its own argument, but a
rename puts a whole subtree behind its destination. The paths stay inside the buffers in every run whose
renames leave room for what they move.
-/

namespace DeepinAnything

open ByteMem OrderedForest OrderedForest.Forest

/-! ## Paths that fit -/

/-- The path of every entry, with its terminator, fits into `PATH_MAX` bytes. -/
def PathsFit (root : Bytes) (t : Tree) : Prop :=
  ∀ q, q ≠ [] → (t.kindAt q).isSome → (root ++ joinPath q).length < pathMax

/-- `get_path_by_name_off` of every entry writes inside a buffer of `PATH_MAX` bytes, whatever is in it. -/
def FsBuf.WritesInside (b : FsBuf) : Prop :=
  ∃ root t, Represents b root t ∧ ∀ q e, q ≠ [] → t.entryAt q = some e → ∀ path : Mem, ∃ path' dst,
    b.doGetPathByNameOff (offAt b.firstNameOff t q) path pathMax = .written path' dst ∧
      ∀ i, pathMax ≤ i → path'.get i = path.get i

variable {b b' : FsBuf} {root : Bytes} {t : Tree}

theorem PathsFit.writes (hfit : PathsFit root t) (h : Represents b root t) : b.WritesInside := by
  refine ⟨root, t, h, fun q e hq hentry path => ?_⟩
  have hsome : (t.kindAt q).isSome := by rw [isSome_kindAt, hentry]; rfl
  obtain ⟨path', dst, heq, hw⟩ := h.doGetPathByNameOff_offAt hq hentry path pathMax (hfit q hq hsome)
  exact ⟨path', dst, heq, fun i hi => hw.frame i (.inr hi)⟩

/-! ## What a call does to the paths -/

/-- The paths that a call is given are shorter than `PATH_MAX`. -/
def Call.Short : Call → Prop
  | .insert _ path _ _ => path.bytes.length < pathMax
  | .remove path _ => path.bytes.length < pathMax
  | .rename _ src dst _ => src.bytes.length < pathMax ∧ dst.bytes.length < pathMax

/-- A rename that passes the checks has room behind its destination for every path below its source. -/
def Call.LeavesRoom (b : FsBuf) : Call → Prop
  | .rename _ src dst _ => b.RenameAccepted src.bytes dst.bytes → ∀ root t, Represents b root t →
    ∀ S D, S ≠ [] → resolve root t src.bytes = some S → address root dst.bytes = some D →
      ∀ s, s ≠ [] → (t.kindAt (S ++ s)).isSome → (root ++ joinPath (D ++ s)).length < pathMax
  | _ => True

/-- A path that leads to an entry is at least as long as the path of the entry. -/
theorem length_le_of_address {p : Bytes} {q : List Bytes} (hq : q ≠ []) (haddr : address root p = some q) :
    (root ++ joinPath q).length ≤ p.length := by
  have hroot : root <+: p := by
    by_contra hnot
    rw [address_eq_none hnot] at haddr
    split at haddr
    · exact hq (Option.some.inj haddr).symm
    · cases haddr
  rcases Represents.eq_joinPath_of_address hroot haddr with rfl | rfl
  · exact le_refl _
  · simp

/-- The entry that a path asks for has a path that is not longer. -/
theorem length_le_of_insertTarget {p : Bytes} {q : List Bytes} {k : Tree} {name : Bytes}
    (h : insertTarget root t p = .ok (q, k, name)) : (root ++ joinPath (q ++ [name])).length ≤ p.length := by
  obtain ⟨parent, hsplit, -, hres, -, -⟩ := insertTarget_eq_ok h
  have haddr : address root parent = some q := by
    rw [resolve] at hres
    exact (Option.filter_eq_some_iff.mp hres).1
  rw [(strrchrSlash_eq_some hsplit).1]
  by_cases hq : q = []
  · subst hq
    -- the parent is the root path, with or without the slash at its end
    have hlen : root.length ≤ parent.length + 1 := by
      by_cases hpre : root <+: parent
      · exact hpre.length_le.trans (Nat.le_succ _)
      · rw [address_eq_none hpre] at haddr
        split at haddr
        · rename_i hcond
          rw [← hcond.1, List.length_append, List.length_singleton]
        · cases haddr
    simp only [List.nil_append, joinPath_singleton, List.length_append, List.length_cons]
    omega
  · have hlen := length_le_of_address hq haddr
    rw [joinPath_snoc hq]
    simp only [List.length_append, List.length_cons] at hlen ⊢
    omega

namespace PathsFit

variable (hfit : PathsFit root t)
include hfit

theorem remove (hv : t.Valid NameOk) {q : List Bytes} {n : Bytes} {e : Entry Bytes}
    (hentry : t.entryAt (q ++ [n]) = some e) : PathsFit root (t.remove q n) := by
  intro p hp hsome
  rw [kindAt_remove hv hentry] at hsome
  split at hsome
  · cases hsome
  · exact hfit p hp hsome

theorem insert {path : Bytes} (hpath : path.length < pathMax) {q : List Bytes} {k : Tree}
    {name : Bytes} (htarget : insertTarget root t path = .ok (q, k, name)) (isDir : Bool) :
    PathsFit root (t.insert q name (newEntry isDir)) := by
  obtain ⟨-, -, -, -, hentry, hnew⟩ := insertTarget_eq_ok htarget
  intro p hp hsome
  rw [kindAt_insert_newEntry hentry hnew] at hsome
  split at hsome
  · rename_i hsame
    subst hsame
    exact (length_le_of_insertTarget htarget).trans_lt hpath
  · exact hfit p hp hsome

theorem renameMid {dst : Bytes} (hdst : dst.length < pathMax) (realloc : ℕ → Bool) (isDir dstExists : Bool) :
    PathsFit root (renameMid b root realloc dst isDir dstExists t) := by
  rw [DeepinAnything.renameMid]
  split
  · exact hfit
  · split
    · rename_i q k name htarget
      split
      · exact hfit
      · exact hfit.insert hdst htarget isDir
    · exact hfit

theorem setKids {q : List Bytes} {k₀ k : Tree} (hentry : t.entryAt q = some (.node k₀))
    (hbelow : ∀ s, s ≠ [] → (k.kindAt s).isSome → (root ++ joinPath (q ++ s)).length < pathMax) :
    PathsFit root (t.setKids q k) := by
  intro p hp hsome
  rw [kindAt_setKids hentry] at hsome
  split at hsome
  · rename_i hpre
    obtain ⟨s, rfl⟩ := hpre
    rw [List.drop_left] at hsome
    by_cases hs : s = []
    · subst hs
      rw [List.append_nil] at hp ⊢
      exact hfit q hp (by rw [isSome_kindAt, hentry]; rfl)
    · exact hbelow s hs hsome
  · exact hfit p hp hsome

/-- What a safe call makes of the tree keeps the paths short if the call's own paths are and a rename leaves
room for what it moves. -/
theorem of_yields (h : Represents b root t) {c : Call} {t' : Tree} (hyields : c.Yields b root t t')
    (hshort : c.Short) (hroom : c.LeavesRoom b) : PathsFit root t' := by
  cases c with
  | insert realloc path isDir change =>
    rcases hyields with rfl | ⟨q, k, name, htarget, rfl⟩
    · exact hfit
    · exact hfit.insert hshort htarget isDir
  | remove path changes =>
    rcases hyields with rfl | rfl | ⟨q, n, e, -, hentry, rfl⟩
    · exact hfit
    · intro p hp hsome
      obtain ⟨x, xs, rfl⟩ := List.exists_cons_of_ne_nil hp
      simp [kindAt_cons, find?] at hsome
    · exact hfit.remove h.valid hentry
  | rename heap src dst changes =>
    rcases hyields with rfl | ⟨hacc, q, n, e, mid, hres, hentry, rfl, hcase⟩
    · exact hfit
    have hmid := (hfit.remove h.valid hentry).renameMid (b := b) hshort.2 heap.realloc e.isNode
      (decide (b.getPathOffset dst.bytes ≠ 0))
    rcases hcase with rfl | ⟨D, hresD, hentryD, rfl⟩
    · exact hmid
    · refine hmid.setKids hentryD fun s hs hsome => ?_
      have haddr := (Option.filter_eq_some_iff.mp hresD).1
      refine hroom hacc root t h _ D (by simp) hres haddr s hs ?_
      rwa [kindAt_append hentry, entryKindAt, if_neg hs]

end PathsFit

/-! ## Runs -/

/-- A build without a refused append, of a file system whose paths fit. -/
def BuildFits (env : WalkEnv) (fuel : ℕ) (b : FsBuf) : Prop :=
  BuildSafe env fuel b ∧ ∀ root t, Represents (env.buildFstree fuel b).2.1 root t → PathsFit root t

/-- A safe call with short paths that leaves room for what it moves. -/
def CallFits (b : FsBuf) (c : Call) : Prop := c.Short ∧ CallSafe b c ∧ c.LeavesRoom b

theorem Reachable.pathsFit (h : Reachable BuildFits CallFits b) :
    ∃ root t, Represents b root t ∧ PathsFit root t := by
  induction h with
  | new hnew =>
    rename_i root b
    refine ⟨root.bytes, .nil, represents_newFsBuf hnew root.zero, fun p hp hsome => ?_⟩
    obtain ⟨x, xs, rfl⟩ := List.exists_cons_of_ne_nil hp
    simp [kindAt_cons, find?] at hsome
  | built hnew hsane hbuild hok =>
    obtain ⟨t, hrep⟩ := represents_of_build hnew hsane hbuild hok.1
    refine ⟨_, t, hrep, hok.2 _ t ?_⟩
    rw [hbuild]
    exact hrep
  | call _ hok hcall ih =>
    obtain ⟨root, t, hrep, hfit⟩ := ih
    obtain ⟨hshort, hsafe, hroom⟩ := hok
    obtain ⟨ret, b', t', heq, hrep', hyields⟩ := hrep.call hsafe
    rw [hcall, Option.some.injEq, Prod.mk.injEq] at heq
    obtain ⟨-, rfl⟩ := heq
    exact ⟨root, t', hrep', hfit.of_yields hrep hyields hshort hroom⟩

/-- In a run of builds and calls that fit, the path of every entry is written inside the callers' buffers. -/
theorem Reachable.writesInside (h : Reachable BuildFits CallFits b) : b.WritesInside := by
  obtain ⟨root, t, hrep, hfit⟩ := h.pathsFit
  exact hfit.writes hrep

theorem PathsFit.of_represents (hfit : PathsFit root t) (h : Represents b root t) {root' : Bytes} {t' : Tree}
    (h' : Represents b root' t') : PathsFit root' t' := by
  obtain rfl : root = root' := h.getRootPath_eq.symm.trans h'.getRootPath_eq
  intro q hq hsome
  exact hfit q hq (by rwa [h.kindAt_unique h' q])

theorem sample_pathsFit : PathsFit [slash] (.node [100] .nil (.leaf [97] .nil)) := by
  intro q hq hsome
  rw [kindAt] at hsome
  obtain ⟨x, xs, rfl⟩ := List.exists_cons_of_ne_nil hq
  by_cases hd : x = [100]
  · cases xs with
    | nil => subst hd; decide
    | cons y ys => simp [entryAt, find?, hd] at hsome
  · by_cases ha : x = [97]
    · cases xs with
      | nil => subst ha; decide
      | cons y ys => simp [entryAt, find?, ha] at hsome
    · simp [entryAt, find?, Ne.symm hd, Ne.symm ha] at hsome

/-- A build and an insertion of `/b`. -/
theorem Reachable.writesInside_sample : ∃ b b' ret, Reachable BuildFits CallFits b ∧
    b.call (.insert (fun _ => true) ⟨[47, 98], by decide, by decide⟩ false ⟨0, 0⟩) = some (ret, b') ∧
    b'.WritesInside := by
  obtain ⟨b₀, b, pr, hnew, hbuild, hsafe, hrep⟩ := sampleEnv_build
  have hb : Reachable BuildFits CallFits b := .built (show newFsBuf _ _ slashPath.bytes = _ from hnew)
    sampleEnv_sane hbuild ⟨hsafe, fun root t h => sample_pathsFit.of_represents hrep (by rwa [hbuild] at h)⟩
  have hinsert : CallFits b (.insert (fun _ => true) ⟨[47, 98], by decide, by decide⟩ false ⟨0, 0⟩) := by
    refine ⟨show ([47, 98] : Bytes).length < pathMax by decide, fun hempty => ?_, trivial⟩
    exact absurd (hrep.tail_eq_first_iff.mp hempty) (by simp)
  obtain ⟨ret, b', -, hcall, -⟩ := hrep.call hinsert.2.1
  exact ⟨b, b', ret, hb, hcall, Reachable.writesInside (.call hb hinsert hcall)⟩

/-! ## A rename that makes the paths too long -/

/-- A name of `NAME_MAX` bytes. -/
def longName : Bytes := List.replicate 255 120

theorem longName_ok : NameOk longName := by
  have hx : ∀ y ∈ longName, y = 120 := fun y hy => List.eq_of_mem_replicate hy
  refine ⟨fun hnil => ?_, fun h => absurd (hx _ h) (by decide), fun h => absurd (hx _ h) (by decide)⟩
  rw [longName, List.replicate_eq_nil_iff] at hnil
  exact absurd hnil (by decide)

theorem length_longName : longName.length = 255 := List.length_replicate

/-- Directories of the long name in each other. -/
def nest : ℕ → Tree
  | 0 => .nil
  | k + 1 => .node longName (nest k) .nil

/-- The address of the innermost of them. -/
def levels (k : ℕ) : List Bytes := List.replicate k longName

theorem treeSize_nest (k : ℕ) : treeSize (nest k) = 265 * k := by
  induction k with
  | zero => rfl
  | succ k ih =>
    rw [nest, treeSize_of_ne_nil (by simp), entriesSize_node, belowSize_node, length_longName]
    simp only [entriesSize_nil, belowSize_nil]
    omega

theorem entryAt_nest (k : ℕ) : (nest k).entryAt (levels k) = some (.node .nil) := by
  induction k with
  | zero => rfl
  | succ k ih =>
    rw [nest, levels, List.replicate_succ, entryAt]
    simpa [find?, levels] using ih

theorem insert_nest (k : ℕ) : (nest k).insert (levels k) longName (.node .nil) = nest (k + 1) := by
  rw [Forest.insert]
  induction k with
  | zero => rfl
  | succ k ih =>
    rw [levels, List.replicate_succ, modifyAt, nest, updateKids, if_pos rfl]
    rw [levels] at ih
    rw [ih]
    rfl

theorem length_joinPath_levels (k : ℕ) : (joinPath (levels (k + 1))).length = 256 * k + 255 := by
  induction k with
  | zero => rw [levels, List.replicate_one, joinPath_singleton, length_longName]
  | succ k ih =>
    rw [levels, List.replicate_succ, joinPath_cons (by simp), List.length_append, List.length_cons]
    rw [levels] at ih
    rw [ih, length_longName]
    omega

/-- The tree with the directories below `d`. -/
def nested (k : ℕ) : Tree := .node [100] (nest k) (.leaf [97] .nil)

theorem entryAt_nested (k : ℕ) : (nested k).entryAt ([100] :: levels k) = some (.node .nil) := by
  simpa [nested, entryAt, find?] using entryAt_nest k

theorem insert_nested (k : ℕ) :
    (nested k).insert ([100] :: levels k) longName (.node .nil) = nested (k + 1) := by
  have h := insert_nest k
  rw [Forest.insert] at h
  rw [Forest.insert, modifyAt, nested, updateKids, if_pos rfl, h, nested]

theorem treeSize_nested (k : ℕ) : treeSize (nested k) = 265 * k + 14 := by
  have h := treeSize_nest k
  rw [nested, treeSize_of_ne_nil (by simp)]
  simp only [entriesSize_node, entriesSize_leaf, entriesSize_nil, belowSize_node, belowSize_leaf, belowSize_nil,
    List.length_singleton]
  omega

/-- The names of a destination below a directory are split at its last slash. -/
theorem destination_joinPath {d : List Bytes} {name : Bytes} (hd : ∀ x ∈ d, NameOk x) (hne : d ≠ [])
    (hname : NameOk name) (hlen : name.length < 2 ^ 31) :
    Destination root (root ++ joinPath (d ++ [name])) d name := by
  have hall : ∀ x ∈ d ++ [name], NameOk x := by
    intro x hx
    rcases List.mem_append.mp hx with hx | hx
    · exact hd x hx
    · exact List.mem_singleton.mp hx ▸ hname
  refine ⟨hname, hlen, ⟨root ++ joinPath d, ?_, address_joinPath hd⟩, address_joinPath hall⟩
  rw [joinPath_snoc hne, ← List.append_assoc]
  exact strrchrSlash_append _ hname.2.2

theorem nameOk_levels (k : ℕ) : ∀ x ∈ [100] :: levels k, NameOk x := by
  intro x hx
  rcases List.mem_cons.mp hx with rfl | hx
  · decide
  · exact List.eq_of_mem_replicate hx ▸ longName_ok

theorem length_joinPath_cons_levels (k : ℕ) :
    (joinPath ([100] :: levels (k + 1))).length = 256 * k + 257 := by
  rw [joinPath_cons (by simp [levels]), List.length_append, List.length_singleton, List.length_cons,
    length_joinPath_levels]
  omega

/-- The path of a directory of the long name below `k` others, as an argument. -/
def levelPath (k : ℕ) (hk : k < 15) : CPath where
  bytes := [slash] ++ joinPath ([100] :: levels (k + 1))
  zero hmem := by
    rcases List.mem_append.mp hmem with hmem | hmem
    · exact absurd hmem (by decide)
    · exact zero_not_mem_joinPath (nameOk_levels _) hmem
  fits := by
    rw [List.length_append, length_joinPath_cons_levels, List.length_singleton]
    omega

theorem growthFails_of_small {b : FsBuf} {realloc : ℕ → Bool} {size : ℕ} (hrealloc : ∀ n, realloc n = true)
    (hsmall : b.tail + 2 * size + fsNewBlkSize ≤ maxFsbufSize) : ¬ GrowthFails b realloc size := by
  rintro ⟨hcap, hmax | hrefused⟩
  · have := wholeBlocks_lt size
    omega
  · simp [hrealloc] at hrefused

/-- A run of insertions makes 15 directories in each other below `d`. -/
theorem exists_reachable_nested {k : ℕ} (hk : k ≤ 15) : ∃ b, Represents b [slash] (nested k) ∧
    Reachable BuildFits (fun _ c => c.Short ∧ ∀ path changes, c ≠ .remove path changes) b := by
  induction k with
  | zero =>
    obtain ⟨b₀, b, pr, hnew, hbuild, hsafe, hrep⟩ := sampleEnv_build
    refine ⟨b, hrep, .built (show newFsBuf _ _ slashPath.bytes = _ from hnew) sampleEnv_sane hbuild
      ⟨hsafe, fun root t h => sample_pathsFit.of_represents hrep (by rwa [hbuild] at h)⟩⟩
  | succ k ih =>
    obtain ⟨b, hrep, hreach⟩ := ih (by omega)
    have hlong := length_longName
    have hdest : Destination [slash] ([slash] ++ joinPath (([100] :: levels k) ++ [longName])) _ _ :=
      destination_joinPath (nameOk_levels k) (by simp) longName_ok (by rw [length_longName]; decide)
    have hbytes : (levelPath k (by omega)).bytes = [slash] ++ joinPath ([100] :: levels k ++ [longName]) := by
      simp only [levelPath, levels, List.replicate_succ', List.cons_append]
    have htarget : insertTarget [slash] (nested k) (levelPath k (by omega)).bytes =
        .ok ([100] :: levels k, .nil, longName) := by
      rw [hbytes]
      exact hdest.insertTarget_eq (entryAt_nested k) (by simp)
    have htail := hrep.tail_eq
    have hfirst := hrep.first_eq
    rw [treeSize_nested] at htail
    have hsize : insertSize .nil longName true = 265 := by
      rw [insertSize, FsBuf.newEntrySize, hlong]
      rfl
    rcases FsBuf.insertPath_ok hrep (by simp [nested]) htarget (fun _ => true) true ⟨0, 0⟩ with
      ⟨hfail, -⟩ | ⟨-, b', off, heq, hrep'⟩
    · refine absurd hfail (growthFails_of_small (fun _ => rfl) ?_)
      rw [hsize, htail, hfirst]
      simp only [dataStart, List.length_singleton, fsNewBlkSize, maxFsbufSize, fsTagBits]
      omega
    · have hcall : b.call (.insert (fun _ => true) (levelPath k (by omega)) true ⟨0, 0⟩) = some (.ok, b') := by
        rw [FsBuf.call, heq]
        rfl
      have hshort : (levelPath k (by omega)).bytes.length < pathMax := by
        rw [levelPath, List.length_append, length_joinPath_cons_levels]
        simp only [List.length_singleton, pathMax]
        omega
      rw [newEntry, if_pos rfl, insert_nested] at hrep'
      refine ⟨b', hrep', .call hreach ?_ hcall⟩
      exact ⟨hshort, by simp⟩

/-- The directory with all the others in it. -/
def pathD : CPath := ⟨[slash, 100], by decide, by decide⟩

/-- The long name in the root. -/
def pathLong : CPath where
  bytes := [slash] ++ joinPath [longName]
  zero hmem := by
    rcases List.mem_append.mp hmem with hmem | hmem
    · exact absurd hmem (by decide)
    · exact zero_not_mem_joinPath (by simpa using longName_ok) hmem
  fits := by
    rw [joinPath_singleton, List.length_append, length_longName]
    decide

theorem pathLong_bytes : pathLong.bytes = slash :: longName := by
  simp [pathLong]

theorem address_pathLong : address [slash] pathLong.bytes = some [longName] :=
  address_joinPath (by simpa using longName_ok)

theorem longName_ne : longName ≠ [100] := by
  intro h
  have := congrArg List.length h
  rw [length_longName] at this
  exact absurd this (by decide)

theorem resolve_pathD (k : ℕ) : resolve [slash] (nested k) pathD.bytes = some [[100]] := by
  have haddr : address [slash] pathD.bytes = some [[100]] := by decide
  rw [resolve, haddr]
  simp [Option.filter, nested, entryAt, find?]

theorem entryAt_pathD (k : ℕ) : (nested k).entryAt [[100]] = some (.node (nest k)) := by
  simp [nested, entryAt, find?]

theorem entryAt_pathLong (k : ℕ) : (nested k).entryAt [longName] = none := by
  have h97 : ([97] : Bytes) ≠ longName := by
    intro h
    have := congrArg List.length h
    rw [length_longName] at this
    exact absurd this (by decide)
  simp [nested, entryAt, find?, longName_ne.symm, h97]

/-- The root is not taken for a file when there is something in it. -/
theorem Represents.doIsFile_root (h : Represents b root t) (ht : t ≠ .nil) : b.doIsFile dataStart = false := by
  have hfirst := h.first_eq
  have hroot : b.strlen dataStart = root.length := by
    rw [FsBuf.strlen, ← FsBuf.getRootPath, h.getRootPath_eq]
  obtain ⟨-, hent, -, -⟩ := h.image.run (c := []) ht
  have hv := h.valid
  rw [FsBuf.doIsFile, hroot, show dataStart + root.length + 1 = b.firstNameOff by omega, decide_eq_false_iff_not]
  cases t with
  | nil => exact absurd rfl ht
  | leaf n r => exact FsBuf.get_ne_zero_of_holds hent.1 hv.1
  | node n k r => exact FsBuf.get_ne_zero_of_holds hent.1 hv.1

theorem renameAccepted_nested {k : ℕ} (h : Represents b [slash] (nested k)) :
    b.RenameAccepted pathD.bytes pathLong.bytes := by
  have hdst : b.getPathOffset pathLong.bytes = 0 := by
    by_contra hne
    obtain ⟨a, haddr, hsome⟩ := (h.getPathOffset_ne_zero_iff _).mp hne
    obtain rfl : [longName] = a := Option.some.inj (address_pathLong.symm.trans haddr)
    rw [isSome_kindAt, entryAt_pathLong] at hsome
    cases hsome
  have hsplit : strrchrSlash pathLong.bytes = some ([], longName) := by
    rw [pathLong_bytes]
    exact strrchrSlash_append [] longName_ok.2.2
  have hparent : b.getPathOffset [] = dataStart := by
    rw [h.getPathOffset_eq]
    rfl
  refine ⟨?_, by rw [hdst]; decide, fun hne => absurd hdst hne, fun hne => absurd hdst hne,
    [], longName, hsplit, longName_ok.1, by rw [hparent]; decide, fun hfile => ?_⟩
  · refine (h.getPathOffset_ne_zero_iff _).mpr ⟨[[100]], by decide, ?_⟩
    rw [isSome_kindAt, entryAt_pathD]
    rfl
  · rw [hparent, h.doIsFile_root (by simp [nested])] at hfile
    cases hfile.2

theorem remove_nested (k : ℕ) : (nested k).remove [] [100] = .leaf [97] .nil := rfl

theorem renameFits_nested {k : ℕ} (hk : k ≤ 15) (h : Represents b [slash] (nested k)) :
    RenameFits b [slash] (nested k) FsBuf.freeHeap pathD.bytes pathLong.bytes := by
  have hfirst := h.first_eq
  have hsize : ∀ kids, FsBuf.renameInsertSize [] kids longName true = 260 := by
    intro kids
    rw [FsBuf.renameInsertSize, if_pos rfl, FsBuf.newEntrySize, length_longName]
    rfl
  have htail : (sizesWithout b (nested k) [] [100]).tail = b.firstNameOff + 8 := by
    rw [sizesWithout, remove_nested]
    rfl
  have hlimit : b.firstNameOff + 8 + 260 + 2 * (265 * 15) + fsNewBlkSize ≤ maxFsbufSize := by
    rw [hfirst]
    decide
  refine ⟨[], [100], .node (nest k), [], longName, resolve_pathD k, entryAt_pathD k, ?_, fun _ => ⟨?_, ?_⟩⟩
  · refine ⟨address_pathLong, ⟨_, rfl⟩, fun hpre => ?_, fun _ kids _ => growthFails_of_small (fun _ => rfl) ?_⟩
    · rw [List.nil_append, List.nil_append, List.cons_prefix_cons] at hpre
      exact longName_ne hpre.1.symm
    · rw [Entry.isNode, hsize, htail]
      omega
  · rw [remove_nested]
    exact cons_ne_nil [97] .leaf .nil
  · refine growthFails_of_small (fun _ => rfl) ?_
    have hbetween : (sizesBetween b (nested k) [] [100] [] longName true).tail ≤ b.firstNameOff + 8 + 260 := by
      rw [sizesBetween]
      simp only
      split
      · rw [hsize, htail]
      · rw [htail]
        exact Nat.le_add_right _ _
    rw [Entry.isNode, Entry.kids, treeSize_nest]
    omega

/-- Fifteen directories of the long name below `/d`, inserted one by one, and `/d` renamed to the long name: no
argument has 4096 bytes, but the path of the innermost directory has, and is written over the start of the
callers' buffers. -/
theorem Reachable.not_writesInside : ∃ b root t q e,
    Reachable BuildFits (fun _ c => c.Short ∧ ∀ path changes, c ≠ .remove path changes) b ∧
    Represents b root t ∧ q ≠ [] ∧ t.entryAt q = some e ∧
    ∀ path, b.doGetPathByNameOff (offAt b.firstNameOff t q) path pathMax = .outOfBounds := by
  obtain ⟨b, hrep, hreach⟩ := exists_reachable_nested (le_refl 15)
  have hacc := renameAccepted_nested hrep
  have hgo : ¬ RenameStops b [slash] (nested 15) FsBuf.freeHeap pathD.bytes pathLong.bytes := by
    rintro (hnot | ⟨S, e, -, -, -, hmalloc⟩)
    · exact hnot hacc
    · cases hmalloc
  obtain ⟨b', ch, S, D, heq, hres, haddr, -, hfinds, himage⟩ :=
    (renameFits_nested (le_refl 15) hrep).moves hrep hgo []
  obtain rfl : [[100]] = S := Option.some.inj ((resolve_pathD 15).symm.trans hres)
  obtain rfl : [longName] = D := Option.some.inj (address_pathLong.symm.trans haddr)
  obtain ⟨t', hrep'⟩ := himage _ (entryAt_pathD 15) (by simp [Entry.kids, nest])
  have hkind : (nested 15).kindAt ([[100]] ++ levels 15) = some true := by
    have hentry := entryAt_nested 15
    rw [kindAt, List.singleton_append, hentry]
    rfl
  -- the innermost directory is found at its new place, so it is in the tree
  have hnames : ∀ x ∈ [longName] ++ levels 15, NameOk x := by
    intro x hx
    rw [show [longName] ++ levels 15 = levels 16 from rfl] at hx
    exact List.eq_of_mem_replicate hx ▸ longName_ok
  obtain ⟨a, ha, hsome⟩ := (hrep'.getPathOffset_ne_zero_iff _).mp
    (hfinds _ _ hkind _ (address_joinPath hnames)).1
  obtain rfl : [longName] ++ levels 15 = a := Option.some.inj ((address_joinPath hnames).symm.trans ha)
  rw [isSome_kindAt] at hsome
  obtain ⟨e, hentry⟩ := Option.isSome_iff_exists.mp hsome
  obtain ⟨q, n, hq⟩ : ∃ q n, [longName] ++ levels 15 = q ++ [n] :=
    ⟨levels 15, longName, List.replicate_succ'⟩
  have hcall : b.call (.rename FsBuf.freeHeap pathD pathLong []) = some (.ok, b') := by
    rw [FsBuf.call, heq]
    rfl
  have hshort : pathLong.bytes.length < pathMax := by
    rw [pathLong_bytes, List.length_cons, length_longName]
    decide
  refine ⟨b', [slash], t', _, e, .call hreach ?_ hcall, hrep', by simp, hentry, fun path => ?_⟩
  · exact ⟨⟨by decide, hshort⟩, by simp⟩
  have hlen : (joinPath ([longName] ++ levels 15)).length = 4095 := length_joinPath_levels 15
  rw [hq] at hentry hlen ⊢
  obtain ⟨c, l, r, rfl, rfl, hc, hl⟩ := exists_plug_of_entryAt hentry
  rw [offAt_plug_cons hc _ hl]
  refine hrep'.doGetPathByNameOff_tooLong path pathMax ?_
  rw [List.length_append, hlen]
  decide

end DeepinAnything
