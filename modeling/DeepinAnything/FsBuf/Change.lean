import DeepinAnything.FsBuf.Moved

/-!
# Reported changes

Who holds offsets of entries applies the changes that a call reports and has to find the same entries
afterwards. Insertions and removals report all they move. A rename that could not get memory for the
new entry counts a change that nobody has written.
-/

namespace DeepinAnything

open ByteMem OrderedForest OrderedForest.Forest

/-- The changes lead from where an entry of the tree stands to where it stands afterwards, for all
entries but those that are gone. -/
def Relocates (b b' : FsBuf) (root : Bytes) (t : Tree) (gone : List Bytes → Prop)
    (changes : List FsChange) : Prop :=
  ∀ p, p ≠ [] → (t.kindAt p).isSome → ¬ gone p →
    b'.getPathOffset (root ++ joinPath p) ≠ 0 ∧
      relocate changes (b.getPathOffset (root ++ joinPath p)) =
        b'.getPathOffset (root ++ joinPath p)

variable {b b' : FsBuf} {root : Bytes} {t t' : Tree}

theorem Follows.relocates {keep gone : List Bytes → Prop} {changes : List FsChange}
    (hf : Follows b.firstNameOff t t' keep changes) (h : Represents b root t)
    (h' : Represents b' root t') (hgone : ∀ p, ¬ gone p → keep p) :
    Relocates b b' root t gone changes := by
  intro p hp hsome hnot
  obtain ⟨hsome', heq⟩ := hf p hp hsome (hgone p hnot)
  rw [isSome_kindAt] at hsome hsome'
  obtain ⟨e, he⟩ := Option.isSome_iff_exists.mp hsome
  obtain ⟨e', he'⟩ := Option.isSome_iff_exists.mp hsome'
  have hpos := h.first_pos
  have hle := le_offAt b.firstNameOff he' hp
  rw [h.getPathOffset_joinPath hp he, h'.getPathOffset_joinPath hp he', h'.first_eq, ← h.first_eq]
  exact ⟨by omega, heq⟩

/-- Nothing has to be relocated in a tree whose entries are all gone. -/
theorem relocates_of_kindAt {gone : List Bytes → Prop} (changes : List FsChange)
    (hall : ∀ p, p ≠ [] → (t.kindAt p).isSome → gone p) : Relocates b b' root t gone changes :=
  fun p hp hsome hnot => absurd (hall p hp hsome) hnot

namespace FsBuf

/-! ## Insertion and removal -/

theorem insertTarget_error_ne_ok {path : Bytes} {ret : Ret}
    (h : insertTarget root t path = .error ret) : ret ≠ .ok := by
  rintro rfl
  unfold insertTarget at h
  split at h
  · simp at h
  split at h
  · simp at h
  split at h
  · simp at h
  split at h
  · split at h <;> simp at h
  · simp at h

theorem insertPath_relocates (h : Represents b root t) (ht : t ≠ .nil) {path : CPath}
    {realloc : ℕ → Bool} {isDir : Bool} {slot change : FsChange}
    (hret : b.insertPath realloc path.bytes isDir slot = some (.ok, b', change)) :
    Relocates b b' root t (fun _ => False) [change] ∧
      ∀ slot', b.insertPath realloc path.bytes isDir slot' = some (.ok, b', change) := by
  constructor
  · cases htarget : insertTarget root t path.bytes with
    | error ret =>
      rw [insertPath_error h htarget, Option.some.injEq, Prod.mk.injEq] at hret
      exact absurd hret.1 (insertTarget_error_ne_ok htarget)
    | ok target =>
      obtain ⟨q, k, name⟩ := target
      obtain ⟨parent, hsplit, hname, hres, hentry, hnew⟩ := insertTarget_eq_ok htarget
      obtain ⟨hok, hlen⟩ := path.nameOk hsplit hname
      obtain ⟨c, rfl, rfl, hc, hparent⟩ := h.exists_plug_of_resolve hres hentry
      rcases (doInsertPath_dir h (fun hroot => by simpa [hroot] using ht) hsplit hok hlen hparent
        realloc isDir slot).2 hnew with ⟨-, heq⟩ | ⟨-, b'', heq, hrep⟩
      · simp [insertPath, heq] at hret
      · simp only [insertPath, heq, Option.some.injEq, Prod.mk.injEq, true_and] at hret
        obtain ⟨rfl, rfl⟩ := hret
        have hkids : (newEntry isDir).kids = .nil := by cases isDir <;> rfl
        have hfollows := follows_insert h hc hkids hnew hrep
        rw [gapSize_eq, show (newEntry isDir).isNode = isDir by cases isDir <;> rfl] at hfollows
        exact hfollows.relocates h hrep fun _ _ => trivial
  · rcases doInsertPath_slot hret with ⟨-, hslot⟩ | ⟨hne, -⟩
    · exact hslot
    · exact absurd rfl hne

/-- A removal that succeeds reports its own changes only. -/
theorem removePath_changes {path : Bytes} {changes ch : List FsChange}
    (hret : b.removePath path changes = some (.ok, b', ch)) (changes' : List FsChange) :
    b.removePath path changes' = some (.ok, b', ch) := by
  rw [removePath, doRemovePath] at hret ⊢
  by_cases hoff : b.getPathOffset path = 0
  · simp [hoff] at hret
  · simp only [hoff, if_false] at hret ⊢
    split at hret
    · rename_i hroot
      rwa [if_pos hroot]
    · rename_i hroot
      rwa [if_neg hroot]

theorem removePath_relocates (h : Represents b root t) {path : Bytes} {changes ch : List FsChange}
    (hret : b.removePath path changes = some (.ok, b', ch)) :
    ∃ s, resolve root t path = some s ∧ Relocates b b' root t (s <+: ·) ch ∧
      ∀ changes', b.removePath path changes' = some (.ok, b', ch) := by
  rcases h.lookup_cases path with ⟨-, hoff⟩ | ⟨hres, -⟩ | ⟨c, l, r, n, e, rfl, hc, hl, hres, hoff⟩
  · simp [removePath, doRemovePath, hoff] at hret
  · exact ⟨_, hres, relocates_of_kindAt ch fun p _ _ => List.nil_prefix, removePath_changes hret⟩
  · refine ⟨_, hres, ?_, removePath_changes hret⟩
    rcases doRemovePath_entry h hoff (fun _ => true) changes false with hfail | ⟨-, hok⟩
    · simp at hfail
    · obtain ⟨b'', kidsTree, heq, hrep, -⟩ := hok
      simp only [removePath, heq, Option.map_some, Option.some.injEq, Prod.mk.injEq, true_and] at hret
      obtain ⟨rfl, rfl⟩ := hret
      exact (follows_remove h hc hl).relocates h hrep fun _ hnot => hnot

/-! ## Renaming -/

/-- The changes of a rename that succeeds lead to the new image, and all of them have been written
by it, exactly if memory could be had for an entry that was not there before. -/
theorem renamePath_relocates_iff (h : Represents b root t) {src : Bytes} {dst : CPath}
    {q d : List Bytes} {n name : Bytes} {e : Entry Bytes} {k₀ : Tree}
    (hres : resolve root t src = some (q ++ [n])) (hentry : t.entryAt (q ++ [n]) = some e)
    (hD : address root dst.bytes = some (d ++ [name])) (hd : t.entryAt d = some (.node k₀))
    (hout : q ++ [n] <+: d ++ [name] → d ++ [name] = q ++ [n]) {heap : Heap}
    {changes ch : List FsChange}
    (hret : b.renamePath heap src dst.bytes changes = some (.ok, b', ch)) :
    (Relocates b b' root t (q ++ [n] <+: ·) ch ∧
        ∀ slot, b.renamePath { heap with slot := slot } src dst.bytes changes = some (.ok, b', ch)) ↔
      (t.entryAt (d ++ [name]) = none → ∀ k, (t.remove q n).entryAt d = some (.node k) →
        ¬ GrowthFails { b with tail := b.firstNameOff + treeSize (t.remove q n) } heap.realloc
          (renameInsertSize d k name e.isNode)) := by
  cases hmiss : t.entryAt (d ++ [name]) with
  | some e' =>
    obtain ⟨-, -, hrep, hfollows, hslots⟩ := renamePath_replaces h hres hentry hD hd hmiss hout hret
    exact iff_of_true ⟨hfollows.relocates h hrep fun _ hnot => hnot, hslots⟩ (by simp)
  | none =>
    have hout' : ¬ q ++ [n] <+: d ++ [name] := by
      intro hpre
      rw [hout hpre, hentry] at hmiss
      simp at hmiss
    obtain ⟨k, hk, -, -, hcase⟩ := renamePath_creates h hres hentry hD hd hmiss hout' hret
    rcases hcase with ⟨hfail, -, -⟩ | ⟨hroom, hslots, hcase⟩
    · refine iff_of_false ?_ fun hcond => hcond rfl k hk hfail
      rintro ⟨-, hslots⟩
      -- the change that was counted is the one that happened to be in the slot
      have hslot : ∀ slot, ch[if e.kids = .nil then 1 else 2]? = some slot := by
        intro slot
        obtain ⟨k', hk', -, -, ⟨-, hslot, -⟩ | ⟨hroom, -⟩⟩ :=
          renamePath_creates h hres hentry hD hd hmiss hout' (hslots slot)
        · exact hslot
        · obtain rfl : k = k' := by simpa [hk] using hk'
          exact absurd hfail hroom
      simpa using (hslot ⟨0, 0⟩).symm.trans (hslot ⟨1, 0⟩)
    · refine iff_of_true ⟨?_, hslots⟩ fun _ k' hk' => ?_
      · rcases hcase with ⟨hempty, -⟩ | ⟨-, hrep, hfollows⟩
        · -- there was nothing but the source
          refine relocates_of_kindAt ch fun p hp hsome => ?_
          have hgone := kindAt_remove h.valid hentry p
          by_contra hnot
          rw [hempty, if_neg hnot] at hgone
          obtain ⟨x, xs, rfl⟩ := List.exists_cons_of_ne_nil hp
          rw [← hgone] at hsome
          simp [kindAt_cons, find?] at hsome
        · exact hfollows.relocates h hrep fun _ hnot => hnot
      · obtain rfl : k = k' := by simpa [hk] using hk'
        exact hroom

/-- What the calls report of an image that is not empty. An insertion and a removal that succeed report
exactly what they move; a rename does if memory could be had for an entry that was not there before. -/
theorem changes_relocate (h : Represents b root t) (ht : t ≠ .nil) :
    (∀ (realloc : ℕ → Bool) (path : CPath) (isDir : Bool) (slot : FsChange) b' change,
      b.insertPath realloc path.bytes isDir slot = some (.ok, b', change) →
        Relocates b b' root t (fun _ => False) [change] ∧
          ∀ slot', b.insertPath realloc path.bytes isDir slot' = some (.ok, b', change)) ∧
    (∀ (path : Bytes) (changes : List FsChange) b' ch,
      b.removePath path changes = some (.ok, b', ch) →
        ∃ s, resolve root t path = some s ∧ Relocates b b' root t (s <+: ·) ch ∧
          ∀ changes', b.removePath path changes' = some (.ok, b', ch)) ∧
    (∀ (heap : Heap) (src dst : CPath) (changes : List FsChange) (q d : List Bytes) (n name : Bytes)
        (e : Entry Bytes) (k₀ : Tree) b' ch,
      resolve root t src.bytes = some (q ++ [n]) → t.entryAt (q ++ [n]) = some e →
      address root dst.bytes = some (d ++ [name]) → t.entryAt d = some (.node k₀) →
      (q ++ [n] <+: d ++ [name] → d ++ [name] = q ++ [n]) →
      b.renamePath heap src.bytes dst.bytes changes = some (.ok, b', ch) →
        ((Relocates b b' root t (q ++ [n] <+: ·) ch ∧ ∀ slot,
            b.renamePath { heap with slot := slot } src.bytes dst.bytes changes =
              some (.ok, b', ch)) ↔
          (t.entryAt (d ++ [name]) = none → ∀ k, (t.remove q n).entryAt d = some (.node k) →
            ¬ GrowthFails { b with tail := b.firstNameOff + treeSize (t.remove q n) } heap.realloc
              (renameInsertSize d k name e.isNode)))) :=
  ⟨fun _ _ _ _ _ _ hret => insertPath_relocates h ht hret,
    fun _ _ _ _ hret => removePath_relocates h hret,
    fun _ _ _ _ _ _ _ _ _ _ _ _ hres hentry hD hd hout hret =>
      renamePath_relocates_iff h hres hentry hD hd hout hret⟩

/-- `/a` is renamed to `/c` beside `/b`, and `/a` is removed. -/
theorem changes_relocate_sample :
    (∃ b' ch, (imageBuf [47] twoFiles 64).renamePath freeHeap pathA.bytes pathC.bytes [] =
        some (.ok, b', ch) ∧
      Relocates (imageBuf [47] twoFiles 64) b' [47] twoFiles ([[97]] <+: ·) ch) ∧
    ∃ b' ch, (imageBuf [47] twoFiles 64).removePath pathA.bytes [] = some (.ok, b', ch) ∧
      Relocates (imageBuf [47] twoFiles 64) b' [47] twoFiles ([[97]] <+: ·) ch := by
  obtain ⟨-, hremove, hrename⟩ := changes_relocate represents_twoFiles (by decide)
  have hok : ((imageBuf [47] twoFiles 64).renamePath freeHeap pathA.bytes pathC.bytes []).map
      (·.1) = some .ok := rfl
  have hok' : ((imageBuf [47] twoFiles 64).removePath pathA.bytes []).map (·.1) = some .ok := rfl
  constructor
  · obtain ⟨⟨ret, b', ch⟩, heq, rfl⟩ := Option.map_eq_some_iff.mp hok
    have haddr : address [47] pathC.bytes = some ([] ++ [[99]]) := by decide
    refine ⟨b', ch, heq, ((hrename freeHeap pathA pathC [] [] [] [97] [99] .leaf twoFiles b' ch
      resolve_pathA entryAt_pathA haddr entryAt_root_twoFiles (by decide) heq).mpr ?_).1⟩
    intro _ k hk
    obtain rfl : twoFiles.remove [] [97] = k := Entry.node.inj (Option.some.inj hk)
    decide
  · obtain ⟨⟨ret, b', ch⟩, heq, rfl⟩ := Option.map_eq_some_iff.mp hok'
    obtain ⟨s, hs, hrel, -⟩ := hremove pathA.bytes [] b' ch heq
    obtain rfl : [] ++ [[97]] = s := Option.some.inj (resolve_pathA.symm.trans hs)
    exact ⟨b', ch, heq, hrel⟩

/-- A longer name for `/a` in a buffer that is full, without memory for a larger one: the call
succeeds, and the second change that it counts is what the array of the caller held before. -/
theorem renamePath_counts_unwritten : ∃ b' change,
    Represents (imageBuf [47] twoFiles 22) [47] twoFiles ∧
    (∀ slot, (imageBuf [47] twoFiles 22).renamePath
      ⟨fun _ => true, fun _ => false, fun _ => true, slot⟩ [47, 97] [47, 99, 99, 99, 99] [] =
        some (.ok, b', [change, slot])) ∧
    ¬ Relocates (imageBuf [47] twoFiles 22) b' [47] twoFiles ([[97]] <+: ·) [change, ⟨0, 1⟩] := by
  refine ⟨_, _, represents_imageBuf _ _ _ ⟨rfl, rfl, by decide⟩ (by decide) (by decide) (by decide),
    fun slot => rfl, fun hrel => ?_⟩
  exact absurd (hrel [[98]] (by decide) (by decide) (by decide)).2 (by decide)

end FsBuf

end DeepinAnything
