import DeepinAnything.FsBuf.Splice
import DeepinAnything.Walkdir.Build

/-!
# The edits of an image compute exactly

On the image of a tree no sum or difference of offsets wraps around, no byte is written at or behind the
capacity, and every tag holds the offset it was given.
-/

namespace DeepinAnything

open ByteMem OrderedForest OrderedForest.Forest

namespace FsBuf

variable {b : FsBuf}

/-! ## Appending -/

theorem appendNewName_sized (hb : b.Sized) {realloc : ℕ → Bool} {name : Bytes} {isDir : Bool}
    (hname : name.length < 2 ^ 31) {b' : FsBuf} (h : b.appendNewName realloc name isDir = some b') :
    b'.Sized := by
  rcases insertNewName_cases hb realloc b.tail isDir false hname with ⟨-, hnone⟩ | ⟨-, b₁, hsome, hins⟩
  · cases h.symm.trans hnone
  · exact Option.some.inj (hsome.symm.trans h) ▸ hins.sized

/-- A parent that is not behind the end of the run is at some distance from there. -/
theorem exists_parentRel {off parentOff : ℕ} (h : parentOff ≤ off) :
    ∃ rel ≤ off, parentOff = if rel = 0 then 0 else off + 1 - rel := by
  by_cases h0 : parentOff = 0
  · exact ⟨0, Nat.zero_le _, by simpa using h0⟩
  · refine ⟨off + 1 - parentOff, by omega, ?_⟩
    rw [if_neg (by omega)]
    omega

theorem appendParentExact (hb : b.Sized) (realloc : ℕ → Bool) {parentOff : ℕ} (h : parentOff ≤ b.tail) :
    b.AppendParentExact realloc parentOff := by
  have hmax := hb.tail_le_max
  refine ⟨roomExact hb (by omega), fun grown hgrown => ?_⟩
  obtain ⟨capacity, -, hroom, hcap, rfl⟩ := exists_capacity_of_grown hb (by omega) hgrown
  have hcap' : capacity ≤ 2 ^ 30 := hcap
  obtain ⟨rel, hle, hparent⟩ := exists_parentRel h
  exact ⟨setParentOffsetExact rel hparent hle (by simp only; omega) (by simpa using hroom),
    sumExact_of_lt (by simp only; omega)⟩

theorem appendParent_sized (hb : b.Sized) {realloc : ℕ → Bool} {parentOff : ℕ} (hle : parentOff ≤ b.tail)
    {b' : FsBuf} (h : b.appendParent realloc parentOff = some b') : b'.Sized := by
  obtain ⟨rel, hrel, hparent⟩ := exists_parentRel hle
  rcases appendParent_cases hb realloc parentOff rel hparent hrel with ⟨hnone, -⟩ | ⟨b₁, hsome, happ, -⟩
  · cases h.symm.trans hnone
  · exact Option.some.inj (hsome.symm.trans h) ▸ happ.sized

/-! ## Paths -/

variable {root : Bytes} {t : Tree}

theorem pathOffsetExact (h : Represents b root t) {path : Bytes} (hpath : path.length < pathMax) :
    b.PathOffsetExact path := by
  have hpos := h.first_pos
  have htail := h.tail_eq
  have hmax := h.sized.tail_le_max
  have hmax' : pathMax = 4096 := rfl
  refine ⟨h.sized.readsExact, diffExact_of_le hpos (by omega), toInt32_of_lt (by omega), ?_⟩
  exact_mod_cast toInt32_of_lt (a := path.length + 2) (by omega)

/-! ## Insertion -/

/-- `do_insert_path` once the parent is known to be a directory. -/
theorem insertPathExact_dir {c : List (Frame Bytes)} {k : Tree} {name : Bytes} (h : Represents b root (plug c k))
    (hroot : c = [] → k ≠ .nil) (hname : NameOk name) (hlen : name.length < 2 ^ 31) (realloc : ℕ → Bool)
    (isDir : Bool) :
    let kidsOff := if dataStart = dirOff b.firstNameOff c then b.firstNameOff
      else b.getKidsOffset (dirOff b.firstNameOff c)
    if kidsOff ≠ 0 then
      ∀ off, b.findSiblingLoop name b.tail kidsOff = some off →
        b.InsertEntryExact realloc (dirOff b.firstNameOff c) off name isDir false
    else
      b.InsertOffsetExact (dirOff b.firstNameOff c) ∧
        ∀ off, b.getInsertOffset (dirOff b.firstNameOff c) = some off →
          b.InsertEntryExact realloc (dirOff b.firstNameOff c) off name isDir true := by
  have hpos := h.first_pos
  have hle := base_le_runPos b.firstNameOff c
  have htail := h.tail_eq
  have himage := (treeAt_plug _ _ _).mp h.image
  rw [kidsOffset_dirOff h hroot]
  by_cases hk : k = .nil
  · subst hk
    cases c with
    | nil => exact absurd rfl (hroot rfl)
    | cons f c =>
      simp only [if_true, ne_eq, not_true_eq_false, if_false, dirOff]
      refine ⟨?_, fun off hoff => ?_⟩
      · exact insertOffsetLoopExact h.sized (l := f.left) (r := node f.name .nil f.right) h.image h.valid
          (by omega) htail.ge (append_cons_ne_nil f.left f.right f.name (.node .nil)) rfl _ _
      · have hinsert := getInsertOffset_grown h rfl le_rfl h.sized.capacity_le
        exact insertEntryExact_empty h hname hlen rfl (Option.some.inj (hoff.symm.trans hinsert)) realloc
  · have hsize := treeSize_of_ne_nil hk
    have hnames := length_names_le k
    have hin := runPos_add_le b.firstNameOff c (treeSize k)
    rw [treeSize_plug] at htail
    obtain ⟨-, hent, hup, -⟩ := h.image.run hk
    have hfind := findSiblingLoop_eq h.sized name hent hup.1 (Valid.of_plug h.valid)
      (by omega) b.tail (by omega)
    have h0 : runPos b.firstNameOff c ≠ 0 := by omega
    simp only [hk, if_false, h0, ne_eq, not_false_eq_true, if_true, hfind]
    intro off hoff
    split at hoff
    · cases hoff
    · rename_i hnew
      exact insertEntryExact_run h hk hname hnew hlen rfl (Option.some.inj hoff).symm realloc

/-- All arithmetic of `insert_path` is exact. -/
theorem insertPathExact (h : Represents b root t) (ht : t ≠ .nil) (path : CPath)
    (hpath : path.bytes.length < pathMax) (realloc : ℕ → Bool) (isDir : Bool) :
    b.InsertPathExact realloc path.bytes isDir := by
  intro parent name hsplit hne
  obtain ⟨hname, hlen⟩ := path.nameOk hsplit hne
  have hparent : parent.length < pathMax := by
    have hbytes := congrArg List.length (strrchrSlash_eq_some hsplit).1
    rw [List.length_append, List.length_cons] at hbytes
    omega
  have hpos := h.first_pos
  have htail := h.tail_eq
  have hcap := h.sized.tail_le
  refine ⟨pathOffsetExact h hparent, fun h0 => ?_⟩
  rcases h.lookup_cases parent with ⟨-, hoff⟩ | ⟨hroot, hoff⟩ | ⟨c, l, r, n, e, rfl, -, -, -, hoff⟩
  · exact absurd hoff h0
  · rw [hoff]
    exact ⟨h.sized.kidsOffsetExact (by omega), fun _ =>
      insertPathExact_dir (c := []) h (fun _ => ht) hname hlen realloc isDir⟩
  · have hfacts := h.entryFacts
    have hin := hfacts.lt_tail
    rw [hoff]
    refine ⟨h.sized.kidsOffsetExact (by omega), fun hfile => ?_⟩
    cases e with
    | leaf =>
      have hisFile := hfacts.isFile
      rw [hfile (by have := hfacts.pos; omega)] at hisFile
      cases hisFile
    | node k => exact insertPathExact_dir (c := ⟨l, n, r⟩ :: c) h (by simp) hname hlen realloc isDir

/-- `insert_path` ends, with a buffer within the limits. -/
theorem insertPath_sized (h : Represents b root t) (ht : t ≠ .nil) (path : CPath) (realloc : ℕ → Bool)
    (isDir : Bool) (change : FsChange) :
    ∃ ret b' change', b.insertPath realloc path.bytes isDir change = some (ret, b', change') ∧ b'.Sized := by
  cases htarget : insertTarget root t path.bytes with
  | error ret => exact ⟨ret, b, change, insertPath_error h htarget realloc isDir change, h.sized⟩
  | ok target =>
    obtain ⟨q, k, name⟩ := target
    rcases insertPath_ok h ht htarget realloc isDir change with ⟨-, heq⟩ | ⟨-, b', off, heq, hrep⟩
    · exact ⟨_, _, _, heq, h.sized⟩
    · exact ⟨_, _, _, heq, hrep.sized⟩

/-! ## Removal -/

/-- `do_remove_path` at an entry. -/
theorem removePathExact_entry {c : List (Frame Bytes)} {l r : Tree} {n : Bytes} {e : Entry Bytes} {off : ℕ}
    (h : Represents b root (plug c (l ++ cons n e r))) (hoff : off = runPos b.firstNameOff c + entriesSize l) :
    if b.getKidsOffset off ≠ 0 then
      SumExact (b.getTreeEndOffset (b.getKidsOffset off)) ∧
        b.RemoveKidsExact off (b.getKidsOffset off) (b.getTreeEndOffset (b.getKidsOffset off)) ∧
        ∀ b', b.removeKids off (b.getKidsOffset off) (b.getTreeEndOffset (b.getKidsOffset off)) = some b' →
          b'.RemoveEntryExact off
    else b.RemoveEntryExact off := by
  have hpos := h.first_pos
  have hmax := h.sized.tail_le_max
  have hkids := h.entryFacts.kidsOff
  rw [← hoff] at hkids
  by_cases hk : e.kids = .nil
  · rw [if_pos hk] at hkids
    obtain ⟨isDir, rfl⟩ := exists_newEntry hk
    rw [hkids, if_neg (by simp)]
    obtain ⟨b', heq, -⟩ := removeEntry_spec isDir off h hoff
    exact heq.2
  rw [if_neg hk] at hkids
  cases e with
  | leaf => exact absurd rfl hk
  | node k =>
    have hrep : Represents b root (plug (⟨l, n, r⟩ :: c) k) := h
    have hle := base_le_runPos b.firstNameOff (⟨l, n, r⟩ :: c)
    have htail := hrep.tail_eq
    have hin := runPos_add_le b.firstNameOff (⟨l, n, r⟩ :: c) (treeSize k)
    have himage := ((treeAt_plug _ (⟨l, n, r⟩ :: c) k).mp h.image).2
    rw [treeSize_plug] at htail
    have hend := getTreeEndOffset_eq h.sized himage hk
      (Valid.of_plug (c := ⟨l, n, r⟩ :: c) h.valid) (by omega)
    have howner : ownerPos b.firstNameOff ⟨l, n, r⟩ c = off := hoff.symm
    obtain ⟨⟨hset, hsetExact⟩, b₁, ⟨hdrop, hdropExact⟩, hrep₁, -⟩ := dropListing _ hrep hk rfl rfl
    rw [howner] at hset hsetExact hdrop hdropExact
    have h0 : runPos b.firstNameOff (⟨l, n, r⟩ :: c) ≠ 0 := by omega
    rw [hkids, if_pos h0, hend]
    refine ⟨sumExact_of_lt (by omega), removeKidsExact_of_closeGap h.sized (by omega) hset hsetExact hdropExact,
      fun b' hb' => ?_⟩
    rw [removeKids_eq h.sized (by omega) hset, hdrop] at hb'
    obtain rfl := Option.some.inj hb'
    have hfirst : b₁.firstNameOff = b.firstNameOff := hrep₁.first_eq.trans h.first_eq.symm
    obtain ⟨b', heq, -⟩ := removeEntry_spec (l := l) (r := r) (n := n) (c := c) true off hrep₁
      (by rw [hfirst]; exact hoff)
    exact heq.2

/-- All arithmetic of `remove_path` is exact. -/
theorem removePathExact (h : Represents b root t) {path : Bytes} (hpath : path.length < pathMax) :
    b.RemovePathExact path := by
  have hpos := h.first_pos
  have htail := h.tail_eq
  have hcap := h.sized.tail_le
  have hmax := h.sized.tail_le_max
  refine ⟨pathOffsetExact h hpath, fun h0 => ?_⟩
  rcases h.lookup_cases path with ⟨-, hoff⟩ | ⟨-, hoff⟩ | ⟨c, l, r, n, e, rfl, -, -, -, hoff⟩
  · exact absurd hoff h0
  · rw [if_pos hoff]
    exact ⟨diffExact_of_le (by omega) (by omega), deltaExact_of_lt (by omega) (by omega)⟩
  · have hfacts := h.entryFacts
    have hin := hfacts.lt_tail
    have hgt := hfacts.pos
    rw [if_neg (by omega)]
    exact ⟨h.sized.kidsOffsetExact (by omega), removePathExact_entry h hoff⟩

/-- `remove_path` ends, with a buffer within the limits. -/
theorem removePath_sized (h : Represents b root t) (path : Bytes) (changes : List FsChange) :
    ∃ ret b' changes', b.removePath path changes = some (ret, b', changes') ∧ b'.Sized := by
  rcases removePath_cases h path changes with
    ⟨-, heq⟩ | ⟨-, b', changes', heq, hrep, -⟩ | ⟨q, n, -, b', changes', heq, hrep, -⟩
  · exact ⟨_, _, _, heq, h.sized⟩
  · exact ⟨_, _, _, heq, hrep.sized⟩
  · exact ⟨_, _, _, heq, hrep.sized⟩

/-! ## All edits -/

/-- From the image of a tree that is not empty, an append, an insertion, a removal and a splice below a
directory without kids compute exactly and write inside the buffer, and what they leave is within the limits
again. `append_parent` gets 0 or the offset of a name that has been written, so nothing behind the tail. -/
theorem edits_exact (h : Represents b root t) (ht : t ≠ .nil) :
    (∀ (realloc : ℕ → Bool) (name : Bytes) (isDir : Bool), name.length < pathMax →
      b.AppendNewNameExact realloc name isDir ∧
        ∀ b', b.appendNewName realloc name isDir = some b' → b'.Sized) ∧
    (∀ (realloc : ℕ → Bool) (parentOff : ℕ), parentOff ≤ b.tail →
      b.AppendParentExact realloc parentOff ∧
        ∀ b', b.appendParent realloc parentOff = some b' → b'.Sized) ∧
    (∀ (realloc : ℕ → Bool) (path : Bytes) (isDir : Bool) (change : FsChange), (0 : UInt8) ∉ path →
      path.length < pathMax →
      b.InsertPathExact realloc path isDir ∧
        ∃ ret b' change', b.insertPath realloc path isDir change = some (ret, b', change') ∧ b'.Sized) ∧
    (∀ (path : Bytes) (changes : List FsChange), path.length < pathMax →
      b.RemovePathExact path ∧
        ∃ ret b' changes', b.removePath path changes = some (ret, b', changes') ∧ b'.Sized) ∧
    ∀ (q : List Bytes), q ≠ [] → t.entryAt q = some (.node .nil) →
      ∀ (b₀ : FsBuf) (root₀ p₀ K : Bytes) (t₀ k : Tree) (q₀ : List Bytes) (malloc : ℕ → Bool)
        (changes₀ : List FsChange), Represents b₀ root₀ t₀ → resolve root₀ t₀ p₀ = some q₀ →
        t₀.kidsAt q₀ = some k → k ≠ .nil →
        (b₀.doRemovePath malloc p₀ changes₀ true).map (fun r => (r.1, r.2.2.2)) = some (.ok, some K) →
        ∀ (reallocTree : ℕ → Bool) (changes : List FsChange),
          b.SpliceTreeExact reallocTree (offAt b.firstNameOff t q) K ∧
            ∃ ret b' changes',
              b.spliceTree reallocTree (offAt b.firstNameOff t q) K changes = some (ret, b', changes') ∧
              b'.Sized := by
  have hmax : pathMax = 4096 := rfl
  refine ⟨fun realloc name isDir hname => ?_, fun realloc parentOff hparent => ?_,
    fun realloc path isDir change hzero hpath => ?_, fun path changes hpath => ?_, ?_⟩
  · exact ⟨insertNewNameExact h.sized realloc le_rfl isDir false (by omega),
      fun b' hb' => appendNewName_sized h.sized (by omega) hb'⟩
  · exact ⟨appendParentExact h.sized realloc hparent, fun b' hb' => appendParent_sized h.sized hparent hb'⟩
  · have hlen : path.length < 2 ^ 31 := by omega
    exact ⟨insertPathExact h ht ⟨path, hzero, hlen⟩ hpath realloc isDir,
      insertPath_sized h ht ⟨path, hzero, hlen⟩ realloc isDir change⟩
  · exact ⟨removePathExact h hpath, removePath_sized h path changes⟩
  · intro q hq hd b₀ root₀ p₀ K t₀ k q₀ malloc changes₀ h₀ hres hkids hk hcopy reallocTree changes
    have himage := isImage_of_doRemovePath h₀ hres hkids hcopy
    obtain ⟨hvalid, hlen⟩ := kidsAt_bounds h₀ hkids
    obtain ⟨f, c, rfl, -, -, hoff⟩ := exists_plug_of_childless hq hd b.firstNameOff
    rw [hoff]
    refine ⟨spliceTreeExact h himage hk hvalid hlen rfl reallocTree, ?_⟩
    rcases spliceTree_spec h himage hk hvalid hlen rfl reallocTree changes with ⟨-, heq⟩ | ⟨-, b', heq, hrep⟩
    · exact ⟨_, _, _, heq, h.sized⟩
    · exact ⟨_, _, _, heq, hrep.sized⟩

/-- A buffer with no room left, for an empty `/d` and `/c/x`: appending a name or a parent tag, adding `/d/a`,
removing `/c` and putting the kids of another image's `/a` below `/d`. -/
theorem edits_exact_sample :
    (imageBuf [47] (targetTree .nil) 35).AppendNewNameExact (fun _ => true) [122] false ∧
      (imageBuf [47] (targetTree .nil) 35).AppendParentExact (fun _ => true) 10 ∧
      (imageBuf [47] (targetTree .nil) 35).InsertPathExact (fun _ => true) [47, 100, 47, 97] false ∧
      (imageBuf [47] (targetTree .nil) 35).RemovePathExact [47, 99] ∧
      (imageBuf [47] (targetTree .nil) 35).SpliceTreeExact (fun _ => true) 10
        [101, 0, 37, 0, 0, 0, 0, 85, 0, 0, 0, 121, 0, 0, 0, 61, 0, 0, 0] := by
  have htarget : Represents (imageBuf [47] (targetTree .nil) 35) [47] (targetTree .nil) :=
    represents_imageBuf _ _ 35 ⟨rfl, rfl, by decide⟩ (by decide) (by decide) (by decide)
  have hsource : Represents (imageBuf [47] sourceTree 64) [47] sourceTree :=
    represents_imageBuf _ _ 64 ⟨rfl, rfl, by decide⟩ (by decide) (by decide) (by decide)
  have hd : (targetTree .nil).entryAt [[100]] = some (.node .nil) := by decide
  have hres : resolve [47] sourceTree [47, 97] = some [[97]] := by decide
  have hkids : sourceTree.kidsAt [[97]] = some splicedKids := by decide
  have hcopy : ((imageBuf [47] sourceTree 64).doRemovePath (fun _ => true) [47, 97] [] true).map
      (fun r => (r.1, r.2.2.2)) =
      some (.ok, some [101, 0, 37, 0, 0, 0, 0, 85, 0, 0, 0, 121, 0, 0, 0, 61, 0, 0, 0]) := by decide +kernel
  obtain ⟨happend, hparent, hinsert, hremove, hsplice⟩ := edits_exact htarget (by simp [targetTree])
  exact ⟨(happend _ _ _ (by decide)).1, (hparent _ _ (by decide)).1,
    (hinsert _ _ _ ⟨0, 0⟩ (by decide) (by decide)).1, (hremove _ [] (by decide)).1,
    (hsplice _ (by simp) hd _ _ _ _ _ _ _ _ _ hsource hres hkids (by simp [splicedKids]) hcopy _ []).1⟩

end FsBuf

end DeepinAnything
