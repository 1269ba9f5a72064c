import DeepinAnything.Server.Buffers

/-!
# Removing an index on request (`lftmanager.cpp`)

`removePath` looks an index up by taking it out of `_global_fsBufMap`. An index that was made automatically
may not be removed; it has left the map by then. An index that may be removed is removed, and the
call ends as if none had been found.
-/

namespace DeepinAnything.Server

/-! ## The code -/

/-- The `QDBusError`s of the call. -/
inductive DBusError where
  | accessDenied
  | notSupported
  | invalidArgs
deriving DecidableEq

/-- The error that a call has sent, and what it returns. -/
structure Reply where
  error : Option (DBusError × QString)
  success : Bool
deriving DecidableEq

namespace Buffers

variable {α : Type*} {s s' : Buffers α}

/-- `removePath` with its reply. `deletable` says whether the LFT file can be deleted if there is one;
`mount` is set if there is a storage at the path. -/
def removePathReply (s : Buffers α) (authorized : Bool) (path : QString) (deletable : Bool)
    (mount : Option Mount) : Option (Buffers α × Reply) :=
  if !authorized then some (s, ⟨some (.accessDenied, []), false⟩)
  else
    match s.fsBufMap.lookup path with
    | some buf =>
      if ".LFT".toList.isSuffixOf (s.fsBufToFileMap buf) then
        (s.removePath path false mount).map (·, ⟨some (.notSupported,
          "Deleting data created by automatic indexing is not supported".toList), false⟩)
      else
        (s.removePath path (deletable && (s.disk (s.fsBufToFileMap buf)).isSome) mount).map
          (·, ⟨some (.invalidArgs, "Not found the index data".toList), false⟩)
    | none =>
      (s.removePath path false mount).map
        (·, ⟨some (.invalidArgs, "Not found the index data".toList), false⟩)

/-! ## What the caller is told -/

/-- The maps, the dirty list and the files are as they were. -/
structure Unchanged (s s' : Buffers α) : Prop where
  fsBufMap_eq : s'.fsBufMap = s.fsBufMap
  fsBufToFileMap_eq : s'.fsBufToFileMap = s.fsBufToFileMap
  fileKeys_eq : s'.fileKeys = s.fileKeys
  fsBufDirtyList_eq : s'.fsBufDirtyList = s.fsBufDirtyList
  disk_eq : s'.disk = s.disk

/-- The index is under no path, has no entry for a file and no mark, and its file is gone. -/
structure Gone (s s' : Buffers α) (buf : ℕ) : Prop where
  fsBufMap : buf ∉ s'.fsBufList
  fileKeys : buf ∉ s'.fileKeys
  fsBufDirtyList : buf ∉ s'.fsBufDirtyList
  disk : s'.disk (s.fsBufToFileMap buf) = none

/-- The call has removed the index and says so, or it reports an error and has changed nothing. -/
def RemoveOk (s : Buffers α) (path : QString) (r : Buffers α × Reply) : Prop :=
  (r.2 = ⟨none, true⟩ ∧ ∃ buf, s.fsBufMap.lookup path = some buf ∧ s.Gone r.1 buf) ∨
    r.2.error ≠ none ∧ s.Unchanged r.1

/-! ## What goes on with a mount point leaves the files alone -/

@[simp] theorem disk_removeBuf_false (s : Buffers α) (buf : ℕ) : (s.removeBuf buf false).disk = s.disk := rfl

theorem disk_addPath (s : Buffers α) (req : AddPath) : (s.addPath req).disk = s.disk := by
  rw [addPath]
  split <;> rfl

theorem disk_installPath (s : Buffers α) (buf : ℕ) (path : QString) :
    (s.installPath buf path).disk = s.disk := by
  rw [installPath]
  split <;> rfl

theorem disk_refreshFile {file : LftFile} (h : s.refreshFile file = some s') : s'.disk = s.disk := by
  have hfold : ∀ (buf : ℕ) (paths : List QString) (s : Buffers α),
      (paths.foldl (fun s path => s.installPath buf path) s).disk = s.disk := by
    intro buf paths
    induction paths with
    | nil => exact fun _ => rfl
    | cons path paths ih => exact fun s => (ih (s.installPath buf path)).trans (disk_installPath s buf path)
  rw [refreshFile] at h
  split at h
  · exact congrArg (fun s : Buffers α => s.disk) (Option.some.inj h).symm
  · exact congrArg (fun s : Buffers α => s.disk) (Option.some.inj h).symm
  · rename_i buf _
    obtain ⟨s₁, hs₁, rfl⟩ := Option.map_eq_some_iff.mp h
    have hmalloc : s₁.disk = s.disk := by
      rw [malloc] at hs₁
      split at hs₁
      · simp at hs₁
      · rw [← Option.some.inj hs₁]
    split
    · exact (hfold _ _ s₁).trans hmalloc
    · exact (disk_addPath s₁ file.rebuild).trans hmalloc

theorem disk_refresh {files : List LftFile} (h : s.refresh files = some s') : s'.disk = s.disk := by
  rw [refresh] at h
  induction files generalizing s with
  | nil => exact congrArg (fun s : Buffers α => s.disk) (Option.some.inj h).symm
  | cons file files ih =>
    rw [List.foldlM_cons] at h
    obtain ⟨s₁, hs₁, h⟩ := Option.bind_eq_some_iff.mp h
    exact (ih h).trans (disk_refreshFile hs₁)

theorem disk_onMountAdded {mount : Mount} (h : s.onMountAdded mount = some s') : s'.disk = s.disk := by
  obtain ⟨s₁, hs₁, rfl⟩ := Option.map_eq_some_iff.mp h
  refine Eq.trans ?_ (disk_refresh hs₁)
  split
  · rfl
  · split
    · exact disk_addPath _ _
    · rfl

/-! ## The tail that success and failure share -/

variable {authorized deletable : Bool} {path : QString} {mount : Option Mount} {buf : ℕ}
  {r : Buffers α × Reply}

/-- The call never reports success. -/
theorem error_of_removePathReply (h : s.removePathReply authorized path deletable mount = some r) :
    r.2.error ≠ none := by
  rw [removePathReply] at h
  split at h
  · rw [← Option.some.inj h]
    simp
  · split at h
    · split at h
      · obtain ⟨s₁, -, rfl⟩ := Option.map_eq_some_iff.mp h
        simp
      · obtain ⟨s₁, -, rfl⟩ := Option.map_eq_some_iff.mp h
        simp
    · obtain ⟨s₁, -, rfl⟩ := Option.map_eq_some_iff.mp h
      simp

/-- An index that has been found leaves its mark: it is under one path less, or its file is gone. -/
theorem removePath_changes (hlookup : s.fsBufMap.lookup path = some buf)
    (hdeleted : deletable = true → (s.disk (s.fsBufToFileMap buf)).isSome)
    (h : s.removePath path deletable mount = some s') :
    s'.fsBufMap ≠ s.fsBufMap ∨ s'.disk ≠ s.disk := by
  have hmem := LftManager.mem_of_lookup hlookup
  have htaken : ∀ l : List (QString × ℕ), l.Sublist (s.fsBufMap.filter (·.1 ≠ path)) → l ≠ s.fsBufMap :=
    fun l hl heq => by
      have hnot := hl.subset (heq ▸ hmem)
      simp at hnot
  rw [removePath, hlookup] at h
  simp only at h
  split at h
  · left
    rw [← Option.some.inj h]
    exact htaken _ (List.Sublist.refl _)
  · have hremoved : ∀ s₁ : Buffers α, s₁ = ({ s with
        fsBufMap := s.fsBufMap.filter (·.1 ≠ path) } : Buffers α).removeBuf buf deletable →
        s₁.fsBufMap ≠ s.fsBufMap := by
      rintro s₁ rfl
      refine htaken _ ?_
      rw [removeBuf_fsBufMap]
      exact List.filter_sublist
    split at h
    · split at h
      · -- its file has been deleted
        rename_i hfile
        rw [Bool.and_eq_true, Bool.not_eq_true', List.isEmpty_eq_false_iff] at hfile
        right
        rw [disk_onMountAdded h]
        intro heq
        have hgone : (({ s with fsBufMap := s.fsBufMap.filter (·.1 ≠ path) } : Buffers α).removeBuf buf
            deletable).disk (s.fsBufToFileMap buf) = none := by
          rw [hfile.1]
          show (LftManager.removeBuf _ buf true).disk _ = none
          simp only [LftManager.removeBuf, LftManager.doLFTFileToDirty, if_true, if_neg hfile.2]
          exact Function.update_self _ _ _
        have hsome := hdeleted hfile.1
        rw [← heq, hgone] at hsome
        simp at hsome
      · exact .inl (hremoved _ (Option.some.inj h).symm)
    · exact .inl (hremoved _ (Option.some.inj h).symm)

/-- In every state of the maps, a call is done or changes nothing just if it is refused for want of
authorisation, or if the path has no index. -/
theorem removePathReply_ok_iff (h : s.removePathReply authorized path deletable mount = some r) :
    s.RemoveOk path r ↔ authorized = false ∨ s.fsBufMap.lookup path = none := by
  have herror := error_of_removePathReply h
  constructor
  · rintro (⟨hok, -⟩ | ⟨-, hsame⟩)
    · exact absurd (congrArg Reply.error hok) herror
    · by_contra hnot
      rw [not_or, Bool.not_eq_false] at hnot
      obtain ⟨hauth, hfound⟩ := hnot
      obtain ⟨buf, hlookup⟩ := Option.ne_none_iff_exists'.mp hfound
      rw [removePathReply, hauth, hlookup] at h
      simp only [Bool.not_true, Bool.false_eq_true, if_false] at h
      have hchanges : r.1.fsBufMap ≠ s.fsBufMap ∨ r.1.disk ≠ s.disk := by
        split at h
        · obtain ⟨s₁, hs₁, rfl⟩ := Option.map_eq_some_iff.mp h
          exact removePath_changes hlookup (fun hd => absurd hd (by decide)) hs₁
        · obtain ⟨s₁, hs₁, rfl⟩ := Option.map_eq_some_iff.mp h
          exact removePath_changes hlookup (fun hd => (Bool.and_eq_true_iff.mp hd).2) hs₁
      exact hchanges.elim (fun hne => hne hsame.fsBufMap_eq) fun hne => hne hsame.disk_eq
  · intro hnot
    refine .inr ⟨herror, ?_⟩
    have hr : r.1 = s := by
      rw [removePathReply] at h
      split at h
      · rw [← Option.some.inj h]
      · rename_i hauth
        have hnone : s.fsBufMap.lookup path = none := hnot.resolve_left fun hf => hauth (by rw [hf]; rfl)
        rw [hnone] at h
        obtain ⟨s₁, hs₁, rfl⟩ := Option.map_eq_some_iff.mp h
        rw [removePath, hnone] at hs₁
        exact (Option.some.inj hs₁).symm
    rw [hr]
    exact ⟨rfl, rfl, rfl, rfl, rfl⟩

/-- The state with one index, which was made automatically. -/
def autoIndexed : Buffers ℕ where
  fsBufMap := [("/d".toList, 1)]
  fsBufToFileMap := fun buf => if buf = 1 then "/d.LFT".toList else []
  fsBufDirtyList := []
  fsWatcherMap := []
  content := fun _ => 0
  disk := fun file => if file = "/d.LFT".toList then some 0 else none
  fileKeys := [1]
  jobs := []
  live := [1]
  installed := [1]
  badFree := false

theorem removePathReply_ok_iff_sample : ∃ r, autoIndexed.removePathReply true "/e".toList true none = some r ∧
    autoIndexed.RemoveOk "/e".toList r := by
  obtain ⟨r, hr⟩ : ∃ r, autoIndexed.removePathReply true "/e".toList true none = some r := ⟨_, rfl⟩
  exact ⟨r, hr, (removePathReply_ok_iff hr).mpr (.inr rfl)⟩

/-- An index that may not be removed is no longer found. -/
theorem removePathReply_not_ok : ∃ r, autoIndexed.removePathReply true "/d".toList true none = some r ∧
    r.2 = ⟨some (.notSupported,
      "Deleting data created by automatic indexing is not supported".toList), false⟩ ∧
    r.1.fsBufMap = [] ∧ r.1.fileKeys = [1] ∧ ¬ autoIndexed.RemoveOk "/d".toList r := by
  refine ⟨_, rfl, rfl, rfl, rfl, ?_⟩
  rintro (⟨hok, -⟩ | ⟨-, hsame⟩)
  · cases hok
  · cases hsame.fsBufMap_eq

end Buffers

end DeepinAnything.Server
