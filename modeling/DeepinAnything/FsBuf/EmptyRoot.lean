import DeepinAnything.FsBuf.Insert

/-!
# Insertion into a root without entries

`do_insert_path` takes the root for a directory that has a run, also when the tree is empty. The
entry is then written without the parent tag that has to close its run, and the buffer is the image
of no tree.
-/

namespace DeepinAnything

open ByteMem OrderedForest OrderedForest.Forest

/-! ## Repairs write bytes and nothing else -/

/-- `b'` is `b` with other bytes. -/
def HeadOnly (b b' : FsBuf) : Prop := ∃ m, b' = { b with head := m }

theorem HeadOnly.refl (b : FsBuf) : HeadOnly b b := ⟨b.head, rfl⟩

theorem HeadOnly.trans {b₁ b₂ b₃ : FsBuf} (h : HeadOnly b₁ b₂) (h' : HeadOnly b₂ b₃) :
    HeadOnly b₁ b₃ := by
  obtain ⟨m, rfl⟩ := h
  obtain ⟨m', rfl⟩ := h'
  exact ⟨m', rfl⟩

theorem HeadOnly.tail_eq {b b' : FsBuf} (h : HeadOnly b b') : b'.tail = b.tail := by
  obtain ⟨m, rfl⟩ := h
  rfl

theorem HeadOnly.first_eq {b b' : FsBuf} (h : HeadOnly b b') : b'.firstNameOff = b.firstNameOff := by
  obtain ⟨m, rfl⟩ := h
  rfl

namespace FsBuf

variable {b : FsBuf}

theorem doSetKidsOff_headOnly (nameOff kidsOff : ℕ) : HeadOnly b (b.doSetKidsOff nameOff kidsOff) :=
  ⟨_, rfl⟩

theorem setParentOffset_headOnly (nameOff parentOff : ℕ) :
    HeadOnly b (b.setParentOffset nameOff parentOff) :=
  ⟨_, rfl⟩

theorem updateKidsOff_headOnly (off : ℕ) (delta : ℤ) : HeadOnly b (b.updateKidsOff off delta) := by
  rw [updateKidsOff]
  simp only
  split
  · exact HeadOnly.refl b
  · exact (doSetKidsOff_headOnly _ _).trans (setParentOffset_headOnly _ _)

theorem updateSiblingsLoop_headOnly (startOff : ℕ) (delta : ℤ) (fuel : ℕ) (b : FsBuf) (off : ℕ) :
    HeadOnly b (updateSiblingsLoop startOff delta fuel b off) := by
  induction fuel generalizing b off with
  | zero => exact HeadOnly.refl b
  | succ fuel ih =>
    rw [updateSiblingsLoop]
    split
    · exact (updateKidsOff_headOnly off delta).trans (ih _ _)
    · exact HeadOnly.refl b

theorem updateParentsLoop_headOnly {delta : ℤ} {fuel : ℕ} {b b' : FsBuf} {startOff off : ℕ}
    (h : updateParentsLoop delta fuel b startOff off = some b') : HeadOnly b b' := by
  induction fuel generalizing b startOff off with
  | zero => simp [updateParentsLoop] at h
  | succ fuel ih =>
    rw [updateParentsLoop] at h
    simp only at h
    split at h
    · split at h
      · split at h
        · obtain rfl := Option.some.inj h
          exact HeadOnly.refl b
        · exact ih h
      · refine HeadOnly.trans ?_ (ih h)
        split
        · exact updateKidsOff_headOnly off delta
        · exact HeadOnly.refl b
    · obtain rfl := Option.some.inj h
      exact HeadOnly.refl b

theorem updateOffsets_headOnly {b' : FsBuf} {startOff : ℕ} {delta : ℤ} {updateSiblings : Bool}
    (h : b.updateOffsets startOff delta updateSiblings = some b') : HeadOnly b b' := by
  rw [updateOffsets] at h
  simp only at h
  split at h
  · split at h
    · obtain rfl := Option.some.inj h
      exact HeadOnly.refl b
    · exact (updateSiblingsLoop_headOnly _ _ _ _ _).trans (updateParentsLoop_headOnly h)
  · exact updateParentsLoop_headOnly h

/-! ## The insertion -/

end FsBuf

/-- A buffer below `root` with one entry without kids, and no parent tag behind it. -/
structure Unclosed (b : FsBuf) (root name : Bytes) (isDir : Bool) : Prop where
  root_ok : RootOk root
  root_at : b.head.Holds dataStart (root ++ [0])
  first_eq : b.firstNameOff = dataStart + root.length + 1
  tail_eq : b.tail = b.firstNameOff + FsBuf.newEntrySize name isDir
  sized : b.Sized
  nameOk : NameOk name
  entry : EntriesAt b.head b.firstNameOff 0 (cons name (newEntry isDir) .nil)

namespace Unclosed

variable {b : FsBuf} {root name : Bytes} {isDir : Bool} (h : Unclosed b root name isDir)
include h

/-- The entry is read like one of a well-formed image. -/
theorem reads : b.strAt b.firstNameOff = name ∧ b.doIsFile b.firstNameOff = !isDir ∧
    b.getKidsOffset b.firstNameOff = 0 ∧ b.nextName b.firstNameOff = b.tail := by
  have hcap := h.sized.tail_le
  have hmax := h.sized.tail_le_max
  have htail := h.tail_eq
  have hent := h.entry
  rw [FsBuf.newEntrySize] at htail
  cases isDir with
  | false =>
    simp only [Bool.false_eq_true, if_false] at htail
    have hlt : b.firstNameOff + name.length < b.capacity := by omega
    refine ⟨FsBuf.strAt_of_file hent.1 h.nameOk hlt, FsBuf.doIsFile_of_file hent.1 h.nameOk hlt,
      FsBuf.getKidsOffset_of_file hent.1 h.nameOk hlt, ?_⟩
    rw [FsBuf.nextName_of_file hent.1 h.nameOk hlt]
    omega
  | true =>
    simp only [if_true] at htail
    have hlt : b.firstNameOff + name.length < b.capacity := by omega
    refine ⟨FsBuf.strAt_of_dir hent.1 h.nameOk hlt, FsBuf.doIsFile_of_dir hent.1 h.nameOk hlt, ?_, ?_⟩
    · rw [FsBuf.getKidsOffset_of_dir hent.1 h.nameOk hlt (by simp; omega)]
      simp
    · rw [FsBuf.nextName_of_dir hent.1 h.nameOk hlt]
      omega

/-- A path is looked up as if the parent tag were there. -/
theorem looksUp : LooksUp b root fun q =>
    if q = [] then dataStart else if q = [name] then b.firstNameOff else 0 := by
  obtain ⟨hstr, -, hkids, hnext⟩ := h.reads
  have hcap := h.sized.tail_le
  have htail := h.tail_eq
  have hfirst := h.first_eq
  have hstart : dataStart = 8 := rfl
  have hpath : b.getRootPath = root := FsBuf.strAt_of_holds h.root_at h.root_ok.zero (by omega)
  have hloop : ∀ p, b.doGetPathOffsetLoop b.tail p b.firstNameOff = if p = name then b.firstNameOff else 0 := by
    intro p
    obtain ⟨n, hn⟩ : ∃ n, b.tail = n + 2 := ⟨b.tail - 2, by omega⟩
    have hend : ∀ p, b.doGetPathOffsetLoop (n + 1) p b.tail = 0 := fun p => by
      rw [FsBuf.doGetPathOffsetLoop, if_neg (lt_irrefl _)]
    have hlt : b.firstNameOff < b.tail := by
      rw [FsBuf.newEntrySize] at htail
      omega
    rw [hn, FsBuf.doGetPathOffsetLoop, if_pos hlt]
    simp only [hstr, if_neg h.nameOk.1, hkids, if_true, hnext, hend]
    by_cases hpre : name <+: p
    · obtain ⟨rest, rfl⟩ := hpre
      rw [if_pos (by simp [List.isPrefixOf_iff_prefix]), List.drop_left]
      cases rest with
      | nil => simp
      | cons c rest => simp
    · have hne : p ≠ name := fun heq => hpre (by rw [heq])
      rw [if_neg (by simpa [List.isPrefixOf_iff_prefix] using hpre), if_neg hne]
  refine ⟨h.root_ok, hpath, hfirst, if_pos rfl, fun q hmem => ?_, fun rel => ?_⟩
  · have hne : q ≠ [name] := by
      rintro rfl
      exact h.nameOk.1 (List.mem_singleton.mp hmem).symm
    rw [if_neg (List.ne_nil_of_mem hmem), if_neg hne]
  · rw [FsBuf.doGetPathOffset_append h.root_ok hpath hfirst, hloop]
    by_cases hrel : rel = []
    · simp [hrel, components]
    rw [if_neg hrel, if_neg (components_ne_nil hrel)]
    have hiff : rel = name ↔ components rel = [name] := by
      constructor
      · rintro rfl
        simpa using components_joinPath (q := [rel]) (by simpa using h.nameOk)
      · intro hcomp
        rw [← joinPath_components rel, hcomp, joinPath_singleton]
    simp only [hiff]

end Unclosed

namespace FsBuf

variable {b : FsBuf}

/-- An entry inserted into the empty root lacks its parent tag: the buffer has become longer by the
entry alone. -/
theorem doInsertPath_emptyRoot {root path parent name : Bytes} (h : Represents b root .nil)
    (hsplit : strrchrSlash path = some (parent, name)) (hname : NameOk name)
    (hlen : name.length < 2 ^ 31) (hparent : b.getPathOffset parent = dataStart)
    (realloc : ℕ → Bool) (isDir : Bool) (change : FsChange) :
    (GrowthFails b realloc (newEntrySize name isDir) ∧
      b.doInsertPath realloc path isDir change = some (.noMem, b, change)) ∨
    (¬ GrowthFails b realloc (newEntrySize name isDir) ∧ ∃ b' change',
      b.doInsertPath realloc path isDir change = some (.ok, b', change') ∧
      b'.Sized ∧ b'.firstNameOff = b.firstNameOff ∧ b'.tail = b.tail + newEntrySize name isDir ∧
      Unclosed b' root name isDir) := by
  have hpos := h.first_pos
  have htail := h.tail_eq
  rw [treeSize_nil, Nat.add_zero] at htail
  have hfind : b.findSiblingLoop name b.tail b.firstNameOff = some b.firstNameOff := by
    rw [htail]
    cases hfirst : b.firstNameOff with
    | zero => rfl
    | succ n => rw [findSiblingLoop, if_neg (by omega)]
  have hinsert : b.doInsertPath realloc path isDir change =
      b.insertEntry realloc dataStart b.firstNameOff name isDir false change := by
    rw [doInsertPath, hsplit]
    simp only [hname.1, if_false, hparent, if_true, hfind]
    rw [if_neg (by simp [dataStart]), if_pos (by omega)]
  have hins := insertNewName_cases h.sized realloc b.firstNameOff isDir false hlen
  simp only [Bool.false_eq_true, if_false, Nat.add_zero] at hins
  rw [hinsert, insertEntry]
  rcases hins with ⟨hfail, hnone⟩ | ⟨hfail, b₁, hsome, hins⟩
  · exact .inl ⟨hfail, by rw [hnone]⟩
  refine .inr ⟨hfail, ?_⟩
  have htail₁ := hins.tail_eq
  have hcap₁ := hins.sized.tail_le
  have hfirst₁ := hins.first_eq
  -- the climb ends at once: there is no parent tag, so the parent is taken for the root
  have hentry := entriesAt_newEntry hins.entry 0
  have hnext : b₁.nextName b.firstNameOff = b₁.tail := by
    have hsize : newEntrySize name isDir = name.length + 1 + if isDir then 4 else 1 := rfl
    cases isDir with
    | false =>
      simp only [Bool.false_eq_true, if_false] at hsize
      rw [nextName_of_file hentry.1 hname (by omega)]
      omega
    | true =>
      simp only [if_true] at hsize
      rw [nextName_of_dir hentry.1 hname (by omega)]
      omega
  have hne := get_ne_zero_of_entries hentry (valid_newEntry hname isDir) (cons_ne_nil _ _ _)
  have hlt : b.firstNameOff < b₁.tail := by
    have : 0 < newEntrySize name isDir := by unfold newEntrySize; omega
    omega
  have htailOff : b₁.getFolderTailOffset b.firstNameOff = 0 := by
    rw [getFolderTailOffset]
    obtain ⟨n, hn⟩ : ∃ n, b₁.tail = n + 2 := ⟨b₁.tail - 2, by omega⟩
    rw [hn, getFolderTailOffsetLoop, if_pos hlt, if_pos hne, hnext, getFolderTailOffsetLoop,
      if_neg (lt_irrefl _)]
  have hparentOff : b₁.getParentOffset b.firstNameOff = 0 := by
    simp only [getParentOffset, htailOff, if_true]
  have hupd : ∀ delta, b₁.updateOffsets b.firstNameOff delta true = some b₁ := by
    intro delta
    rw [updateOffsets, if_pos rfl, get1stSiblingOffset]
    simp only [hparentOff, if_true, hfirst₁]
    rw [if_neg (by omega), (updateSiblingsLoop_stop _ (lt_irrefl _) _).1, hparentOff, loopFuel,
      updateParentsLoop, if_neg (by simp)]
  simp only [hsome, Bool.false_eq_true, if_false, ne_eq, not_true_eq_false, hupd, Option.map_some]
  refine ⟨b₁, _, rfl, hins.sized, hfirst₁, htail₁, h.root_ok, h.root_at.congr fun i hi => ?_,
    hfirst₁.trans h.first_eq, by rw [htail₁, hfirst₁, htail], hins.sized, hname, hfirst₁ ▸ hentry⟩
  have hfirst := h.first_eq
  simp only [List.length_append, List.length_singleton] at hi
  exact hins.before _ (by omega)

end FsBuf

end DeepinAnything
