import DeepinAnything.FsBuf.Remove

/-!
# Renaming

`rename_path` removes the source with a copy of the bytes below it, inserts the destination unless
it exists, and puts the bytes back below it. The result of the insertion is not looked at, so the
rename is a move on the tree only where that insertion can be relied on; `moveEntry_spec` says
what is needed, and `do_rename_path` in front of it only makes the checks.
-/

namespace DeepinAnything

open ByteMem OrderedForest OrderedForest.Forest

/-! ## Putting a subtree back -/

theorem IsImage.length_eq {bs : Bytes} {t : Tree} (h : IsImage bs t) : bs.length = treeSize t := by
  obtain ⟨m, off, up, -, rfl⟩ := h
  exact Mem.length_load off _

/-- The bytes of an image are the image wherever they stand. -/
theorem IsImage.treeAt {bs : Bytes} {t : Tree} (h : IsImage bs t) {m : Mem} {off : ℕ}
    (hm : m.Holds off bs) : ∃ up, TreeAt m off up t := by
  obtain ⟨m₀, off₀, up, htree, rfl⟩ := h
  refine ⟨up, htree.congr fun i hi => ?_⟩
  have hload := Mem.holds_load (m := m₀) off₀ (treeSize t)
  have hi' : i < (m₀.load off₀ (treeSize t)).length := by rwa [Mem.length_load]
  rw [hm.get hi', hload.get hi']

namespace FsBuf

variable {b : FsBuf}

/-- Around the copied bytes that have been put in below an empty folder, the kids offset of the folder and the
parent tag of the run are written. -/
theorem Inserted.spliced {b₁ : FsBuf} {root : Bytes} {f : Frame Bytes} {c : List (Frame Bytes)} {k : Tree}
    {bs : Bytes} {base : ℕ} (hins : Inserted b b₁ (runPos base (f :: c)) (treeSize k) bs)
    (h : Represents b root (plug (f :: c) .nil)) (hbs : IsImage bs k) (hk : k ≠ .nil) (hv : k.Valid NameOk)
    (hbase : b.firstNameOff = base) :
    b₁.SetKidsOffExact (ownerPos base f c) (runPos base (f :: c)) ∧
      ∃ b₂, b₁.doSetKidsOff (ownerPos base f c) (runPos base (f :: c)) = b₂ ∧ b₂.Sized ∧
        b₂.getFolderTailOffset (runPos base (f :: c)) = runPos base (f :: c) + entriesSize k ∧
        b₂.SetParentOffsetExact (runPos base (f :: c) + entriesSize k) (ownerPos base f c) ∧
        ∃ b₃, b₂.setParentOffset (runPos base (f :: c) + entriesSize k) (ownerPos base f c) = b₃ ∧
          runPos b₃.firstNameOff (f :: c) = runPos base (f :: c) ∧ Attached b₃ root (f :: c) k := by
  have hpos := h.first_pos
  have hle := base_le_runPos base c
  have htail := h.tail_eq
  have hctx := ((treeAt_plug _ _ _).mp h.image).1
  have hf : NameOk f.name := ((valid_append _ _).mp (Valid.of_plug (c := c) h.valid)).2.1.1
  simp only [ne_eq, not_true_eq_false, decide_false, treeSize_nil] at hctx
  rw [hbase] at hpos htail hctx
  rw [treeSize_plug, treeSize_nil] at htail
  have hin := runPos_add_le base (f :: c) 0
  have hrun := runPos_cons base f c
  have hsize := frameSize_eq f
  have howner : ownerPos base f c = runPos base c + entriesSize f.left := rfl
  have hksize := treeSize_of_ne_nil hk
  have hsized := hins.sized
  have hfirst := hins.first_eq
  have htail₁ := hins.tail_eq
  have hcap₁ := hsized.tail_le
  have hmax₁ := hsized.tail_le_max
  obtain ⟨up, himage⟩ := hbs.treeAt hins.entry
  obtain ⟨hent, hup⟩ := himage.1 hk
  have hbelow := himage.2
  rw [runSize_of_ne_nil hk, ← Nat.add_assoc] at hbelow
  have hctx₁ : ContextAt b₁.head base (f :: c) false (treeSize k) 0 := by
    refine hctx.congr (fun i hi => hins.before _ (by omega)) ?_ (n := b.tail - runPos base (f :: c))
      (by omega)
    simpa using hins.behind
  obtain ⟨m₂, hkids, hctx₂, hframe₂⟩ := doSetKidsOff_owner (runPos base (f :: c)) hctx₁ hf true
    rfl (by omega) (by omega)
  have htailOff : ({ b₁ with head := m₂ } : FsBuf).getFolderTailOffset (runPos base (f :: c)) =
      runPos base (f :: c) + entriesSize k :=
    getFolderTailOffset_eq (hsized.with_head m₂) (hent.congr fun i hi => hframe₂ _ (by omega))
      (by simp only; rw [hframe₂ _ (by omega)]; exact hup.1) hv (by simp only; omega)
  obtain ⟨m₃, hset, hup₃, hframe₃⟩ := setParentOffset_owner (b := { b₁ with head := m₂ }) (f := f)
    (c := c) (e := entriesSize k) base rfl (by omega) (by omega)
  refine ⟨setKidsOffExact_owner _ hctx₁ hf true rfl (by omega) (by omega), _, hkids, hsized.with_head m₂,
    htailOff, setParentOffsetExact_owner base rfl (by omega) (by omega) (by simp only; omega), _, hset,
    by simp only [hfirst, hbase], ?_⟩
  refine ⟨hsized.with_head m₃, h.root_ok, ?_, hfirst.trans h.first_eq, ?_, h.valid.replug hv, ?_, ?_,
    ?_, ?_⟩
  · have hfirst' := h.first_eq
    refine h.root_at.congr fun i hi => ?_
    simp only [List.length_append, List.length_singleton] at hi
    rw [hframe₃ _ (by omega), hframe₂ _ (by omega), hins.before _ (by omega)]
  · simp only [hfirst]
    rw [plugSize_eq]
    omega
  · simp only [hfirst, hbase]
    refine hctx₂.congr (fun i hi => hframe₃ _ ?_) (fun i hi => hframe₃ _ ?_) (n := b.tail) (by
      rw [plugSize_eq]; omega)
    · omega
    · omega
  · simp only [hfirst, hbase]
    exact hent.congr fun i hi => by rw [hframe₃ _ (by omega), hframe₂ _ (by omega)]
  · simpa only [hfirst, hbase] using hup₃
  · simp only [hfirst, hbase]
    exact hbelow.congr fun i hi => by rw [hframe₃ _ (by omega), hframe₂ _ (by omega)]

/-- `get_insert_offset` in a buffer that has been grown. -/
theorem getInsertOffset_grown {root : Bytes} {f : Frame Bytes} {c : List (Frame Bytes)} {base capacity : ℕ}
    (h : Represents b root (plug (f :: c) .nil)) (hbase : b.firstNameOff = base) (hle : b.capacity ≤ capacity)
    (hcap : capacity ≤ maxFsbufSize) :
    ({ b with capacity := capacity } : FsBuf).getInsertOffset (ownerPos base f c) =
      some (runPos base (f :: c)) := by
  have hpos := h.first_pos
  have htail := h.tail_eq
  have hin := h.sized.tail_le
  have hctx := ((treeAt_plug _ _ _).mp h.image).1
  simp only [ne_eq, not_true_eq_false, decide_false, treeSize_nil] at hctx
  rw [hbase] at hpos htail hctx
  rw [treeSize_plug, treeSize_nil] at htail
  exact getInsertOffset_eq (b := { b with capacity := capacity }) ⟨by simp only; omega, hcap⟩ f c hctx
    h.valid (by omega) (by simp only; omega)

/-- The splice of `do_rename_path`: the copied bytes become the kids of an empty folder. -/
theorem spliceTree_spec {root : Bytes} {f : Frame Bytes} {c : List (Frame Bytes)} {k : Tree}
    {bs : Bytes} {base : ℕ} (h : Represents b root (plug (f :: c) .nil)) (hbs : IsImage bs k)
    (hk : k ≠ .nil) (hv : k.Valid NameOk) (hlen : treeSize k < 2 ^ 31)
    (hbase : b.firstNameOff = base) (reallocTree : ℕ → Bool) (changes : List FsChange) :
    (GrowthFails b reallocTree (treeSize k) ∧
      b.spliceTree reallocTree (ownerPos base f c) bs changes = some (.noMem, b, changes)) ∨
    (¬ GrowthFails b reallocTree (treeSize k) ∧ ∃ b',
      b.spliceTree reallocTree (ownerPos base f c) bs changes =
        some (.ok, b', changes ++ [⟨runPos base (f :: c), treeSize k⟩]) ∧
      Represents b' root (plug (f :: c) k)) := by
  have hmax := h.sized.tail_le_max
  rw [spliceTree, hbs.length_eq]
  simp only
  rcases grow_cases h.sized reallocTree (treeSize k) (by omega) with
    ⟨hfail, hgrow⟩ | ⟨hfail, capacity, hcapacity, hroom, hcap, hgrow⟩
  · exact .inl ⟨hfail, by rw [hgrow]⟩
  refine .inr ⟨hfail, ?_⟩
  have hins := inserted_of_room (runPos base (f :: c)) hbs.length_eq.le hcapacity hroom hcap
  have hu32 : u32 (b.tail + treeSize k) = b.tail + treeSize k := u32_of_lt (by omega)
  rw [hgrow]
  simp only [getInsertOffset_grown h hbase hcapacity hcap, hu32]
  obtain ⟨-, b₂, hkids, -, htailOff, -, b₃, hset, hpos, hattached⟩ := hins.spliced h hbs hk hv hbase
  obtain ⟨b', hupd, hrep⟩ := hattached.repair hk
  have hdelta : toInt32 (treeSize k) = treeSize k := toInt32_of_lt (by omega)
  rw [hpos] at hupd
  refine ⟨b', ?_, hrep⟩
  simp only [hkids, htailOff, hset, hdelta, hupd.1]
  rfl

/-- All arithmetic of the splice is exact. -/
theorem spliceTreeExact {root : Bytes} {f : Frame Bytes} {c : List (Frame Bytes)} {k : Tree}
    {bs : Bytes} {base : ℕ} (h : Represents b root (plug (f :: c) .nil)) (hbs : IsImage bs k)
    (hk : k ≠ .nil) (hv : k.Valid NameOk) (hlen : treeSize k < 2 ^ 31)
    (hbase : b.firstNameOff = base) (reallocTree : ℕ → Bool) :
    b.SpliceTreeExact reallocTree (ownerPos base f c) bs := by
  have hpos := h.first_pos
  have htail := h.tail_eq
  have hmax := h.sized.tail_le_max
  rw [hbase] at hpos htail
  have hin := runPos_add_le base (f :: c) 0
  have himage : TreeAt b.head base 0 (plug c (f.left ++ node f.name .nil f.right)) := hbase ▸ h.image
  rw [SpliceTreeExact, hbs.length_eq]
  simp only
  refine ⟨sumExact_of_lt (by omega), roomExact h.sized (by omega), fun grown hgrown => ?_⟩
  obtain ⟨capacity, hle, hroom, hcap, rfl⟩ := exists_capacity_of_grown h.sized (by omega) hgrown
  have hsized : ({ b with capacity := capacity } : FsBuf).Sized := ⟨by simp only; omega, hcap⟩
  have hcap' : capacity ≤ 2 ^ 30 := hcap
  refine ⟨hsized.readsExact, ?_, fun kidsOff hkidsOff => ?_⟩
  · exact insertOffsetLoopExact hsized himage h.valid (by omega) (by simp only; rw [htail]; rfl)
      (append_cons_ne_nil f.left f.right f.name (.node .nil)) rfl _ _
  obtain rfl : runPos base (f :: c) = kidsOff :=
    Option.some.inj ((getInsertOffset_grown h hbase hle hcap).symm.trans hkidsOff)
  rw [treeSize_plug, treeSize_nil] at htail
  have hins := inserted_of_room (runPos base (f :: c)) hbs.length_eq.le hle hroom hcap
  have hu32 : u32 (b.tail + treeSize k) = b.tail + treeSize k := u32_of_lt (by omega)
  obtain ⟨hkidsExact, b₂, hkids, hsized₂, htailOff, hparentExact, b₃, hset, hpos, hattached⟩ :=
    hins.spliced h hbs hk hv hbase
  obtain ⟨b', hupd, -⟩ := hattached.repair hk
  have hdelta : toInt32 (treeSize k) = treeSize k := toInt32_of_lt (by omega)
  rw [hpos] at hupd
  simp only [hu32, hkids, htailOff, hset, hdelta]
  exact ⟨⟨hu32, by simp only; omega, fun _ => hroom⟩, hkidsExact, hsized₂.readsExact, hparentExact, trivial,
    hupd.2⟩

end FsBuf

/-! ## Moving an entry -/

/-- The tree between the two halves of a rename: the source is gone, which left `t₁`, and the
destination has been inserted where it was missing and could be. -/
def renameMid (b : FsBuf) (root : Bytes) (realloc : ℕ → Bool) (dstPath : Bytes) (isDir dstExists : Bool)
    (t₁ : Tree) : Tree :=
  if dstExists then t₁
  else
    match insertTarget root t₁ dstPath with
    | .ok (q, k, name) =>
      if GrowthFails { b with tail := b.firstNameOff + treeSize t₁ } realloc (insertSize k name isDir)
      then t₁ else t₁.insert q name (newEntry isDir)
    | .error _ => t₁

/-- When the second half of a rename works on a well-formed image: nothing is inserted into a root
that the removal has emptied, and a subtree that is put back finds the destination again. -/
structure RenameSafe (b : FsBuf) (root : Bytes) (realloc : ℕ → Bool) (dstPath : Bytes)
    (dstExists : Bool) (e : Entry Bytes) (t₁ : Tree) : Prop where
  not_empty : dstExists = false → t₁ = .nil → ∀ p, insertTarget root t₁ dstPath ≠ .ok p
  found : e.kids ≠ .nil → ∃ q, q ≠ [] ∧
    resolve root (renameMid b root realloc dstPath e.isNode dstExists t₁) dstPath = some q ∧
    (renameMid b root realloc dstPath e.isNode dstExists t₁).entryAt q = some (.node .nil)

namespace FsBuf

variable {b : FsBuf}

/-- The insertion in the middle of a rename, whatever comes of it. -/
theorem renameInsert_spec {root : Bytes} {t₁ : Tree} (h : Represents b root t₁) {dst : CPath}
    (isDir : Bool) (hne : t₁ = .nil → ∀ p, insertTarget root t₁ dst.bytes ≠ .ok p)
    (realloc : ℕ → Bool) (change : FsChange) :
    ∃ ret b' change', b.doInsertPath realloc dst.bytes isDir change = some (ret, b', change') ∧
      Represents b' root (renameMid b root realloc dst.bytes isDir false t₁) := by
  rw [renameMid, if_neg (by simp)]
  cases htarget : insertTarget root t₁ dst.bytes with
  | error ret => exact ⟨_, _, _, insertPath_error h htarget realloc isDir change, h⟩
  | ok p =>
    obtain ⟨q, k, name⟩ := p
    have ht₁ : t₁ ≠ .nil := fun h0 => hne h0 _ htarget
    have htail : b.firstNameOff + treeSize t₁ = b.tail := h.tail_eq.symm
    simp only [htail]
    rcases insertPath_ok h ht₁ htarget realloc isDir change with
      ⟨hfail, heq⟩ | ⟨hroom, b', off, heq, hrep⟩
    · rw [if_pos hfail]
      exact ⟨_, _, _, heq, h⟩
    · rw [if_neg hroom]
      exact ⟨_, _, _, heq, hrep⟩

/-- What `do_rename_path` does once the source is removed: it inserts the destination unless it exists, and
puts back what it copied. -/
theorem moveEntry_of_removed (heap : Heap) {src : Bytes} {changes ch : List FsChange} {b₁ : FsBuf}
    {kidsTree : Option Bytes} (heq : b.doRemovePath heap.malloc src changes true = some (.ok, b₁, ch, kidsTree))
    (dst : Bytes) (isDir : Bool) (dstOff : ℕ) :
    b.moveEntry heap src dst (!isDir) dstOff changes =
      (if dstOff = 0 then
        (b₁.doInsertPath heap.realloc dst isDir heap.slot).map fun r => (r.2.1, ch ++ [r.2.2])
        else some (b₁, ch)).bind fun p =>
          kidsTree.elim (some (.ok, p)) fun tree =>
            p.1.spliceTree heap.reallocTree (p.1.getPathOffset dst) tree p.2 := by
  rw [moveEntry, heq]
  simp only [ne_eq, not_true_eq_false, if_false, Bool.not_not]
  cases (if dstOff = 0 then
      (b₁.doInsertPath heap.realloc dst isDir heap.slot).map fun r => (r.2.1, ch ++ [r.2.2])
      else some (b₁, ch)) with
  | none => rfl
  | some p => cases kidsTree <;> rfl

/-- `do_rename_path` behind its checks. On success the tree is the one after the insertion, with
the subtree of the source below the destination; on failure the subtree may be missing. -/
theorem moveEntry_spec {root src : Bytes} {c : List (Frame Bytes)} {l r : Tree} {n : Bytes}
    {e : Entry Bytes} (h : Represents b root (plug c (l ++ cons n e r)))
    (hsrc : b.getPathOffset src = runPos b.firstNameOff c + entriesSize l) (heap : Heap) {dst : CPath}
    {dstOff : ℕ} (hsafe : RenameSafe b root heap.realloc dst.bytes (decide (dstOff ≠ 0)) e
      (plug c (l ++ r))) (changes : List FsChange) :
    ∃ ret b' changes' t',
      b.moveEntry heap src dst.bytes (!e.isNode) dstOff changes = some (ret, b', changes') ∧
      Represents b' root t' ∧
      (ret = .ok → e.kids = .nil → t' =
        renameMid b root heap.realloc dst.bytes e.isNode (decide (dstOff ≠ 0)) (plug c (l ++ r))) ∧
      (ret = .ok → e.kids ≠ .nil → ∃ q, resolve root (renameMid b root heap.realloc dst.bytes e.isNode
          (decide (dstOff ≠ 0)) (plug c (l ++ r))) dst.bytes = some q ∧
        t' = (renameMid b root heap.realloc dst.bytes e.isNode (decide (dstOff ≠ 0))
          (plug c (l ++ r))).setKids q e.kids) ∧
      (ret ≠ .ok → t' = plug c (l ++ cons n e r) ∨
        t' = renameMid b root heap.realloc dst.bytes e.isNode (decide (dstOff ≠ 0)) (plug c (l ++ r))) := by
  rcases doRemovePath_entry h hsrc heap.malloc changes true with ⟨-, -, -, heq⟩ | ⟨-, hok⟩
  · exact ⟨_, _, _, _, by rw [moveEntry, heq]; rfl, h, by simp, by simp, fun _ => .inl rfl⟩
  obtain ⟨b₁, kidsTree, heq, hrep₁, hcap, hcopy, hnone⟩ := hok
  generalize removeChanges b.firstNameOff c l r n e = changes₁ at heq
  have hfirst : b₁.firstNameOff = b.firstNameOff := hrep₁.first_eq.trans h.first_eq.symm
  have hgrow : ∀ size, GrowthFails { b₁ with tail := b₁.firstNameOff + treeSize (plug c (l ++ r)) }
      heap.realloc size ↔
      GrowthFails { b with tail := b.firstNameOff + treeSize (plug c (l ++ r)) } heap.realloc size := by
    intro size
    rw [GrowthFails, GrowthFails]
    simp only [hcap, hfirst]
  generalize plug c (l ++ r) = t₁ at hrep₁ hsafe hgrow ⊢
  have hmid : ∀ isDir dstExists, renameMid b₁ root heap.realloc dst.bytes isDir dstExists t₁ =
      renameMid b root heap.realloc dst.bytes isDir dstExists t₁ := by
    intro isDir dstExists
    simp only [renameMid, hgrow]
  -- the buffer after the insertion
  obtain ⟨b₂, changes₂, hins, hrep₂⟩ : ∃ b₂ changes₂,
      (if dstOff = 0 then
        (b₁.doInsertPath heap.realloc dst.bytes e.isNode heap.slot).map fun r => (r.2.1, changes₁ ++ [r.2.2])
        else some (b₁, changes₁)) = some (b₂, changes₂) ∧
      Represents b₂ root (renameMid b root heap.realloc dst.bytes e.isNode (decide (dstOff ≠ 0)) t₁) := by
    by_cases h0 : dstOff = 0
    · have hfalse : decide (dstOff ≠ 0) = false := by simp [h0]
      rw [hfalse] at hsafe ⊢
      obtain ⟨ret, b', change', hdo, hrep⟩ :=
        renameInsert_spec hrep₁ e.isNode (hsafe.not_empty rfl) heap.realloc heap.slot
      rw [hmid] at hrep
      exact ⟨b', _, by rw [if_pos h0, hdo]; rfl, hrep⟩
    · refine ⟨b₁, changes₁, by rw [if_neg h0], ?_⟩
      rw [renameMid, if_pos (by simpa using h0)]
      exact hrep₁
  have hfound := hsafe.found
  generalize renameMid b root heap.realloc dst.bytes e.isNode (decide (dstOff ≠ 0)) t₁ = mid
    at hrep₂ hfound ⊢
  by_cases hk : e.kids = .nil
  · obtain rfl : kidsTree = none := hnone (.inr hk)
    refine ⟨.ok, b₂, changes₂, mid, ?_, hrep₂, fun _ _ => rfl, fun _ hne => absurd hk hne,
      fun _ => .inr rfl⟩
    rw [moveEntry_of_removed heap heq, hins]
    rfl
  · obtain ⟨tree, rfl, himage⟩ := hcopy rfl hk
    obtain ⟨q, hq, hres, hentry⟩ := hfound hk
    have hmove : b.moveEntry heap src dst.bytes (!e.isNode) dstOff changes =
        b₂.spliceTree heap.reallocTree (b₂.getPathOffset dst.bytes) tree changes₂ := by
      rw [moveEntry_of_removed heap heq, hins]
      rfl
    obtain ⟨d, rfl, rfl, hd, hoff⟩ := hrep₂.exists_plug_of_resolve hres hentry
    cases d with
    | nil => exact absurd rfl hq
    | cons f d =>
      have hv : e.kids.Valid NameOk :=
        ((valid_cons _ _ _).mp ((valid_append _ _).mp (Valid.of_plug h.valid)).2.1).2.2.1
      have hlen : treeSize e.kids < 2 ^ 31 := by
        have hin := runPos_add_le b.firstNameOff c (treeSize (l ++ cons n e r))
        have hfit := h.fits
        rw [treeSize_plug] at hfit
        have hle : treeSize e.kids ≤ treeSize (l ++ cons n e r) := by
          rw [treeSize_of_ne_nil (append_cons_ne_nil l r n e), belowSize_append]
          cases e with
          | leaf => exact Nat.zero_le _
          | node k => rw [cons_node, belowSize_node]; simp only [Entry.kids]; omega
        omega
      rcases spliceTree_spec hrep₂ himage hk hv hlen rfl heap.reallocTree changes₂ with
        ⟨-, hsplice⟩ | ⟨-, b', hsplice, hrep'⟩
      · exact ⟨_, _, _, _, by rw [hmove, hoff]; exact hsplice, hrep₂, by simp, by simp, fun _ => .inr rfl⟩
      · refine ⟨_, _, _, _, by rw [hmove, hoff]; exact hsplice, hrep', fun _ hne => absurd hne hk, ?_,
          fun hne => absurd rfl hne⟩
        exact fun _ _ => ⟨_, hres, (setKids_plug hd _ _).symm⟩

/-- Without memory for the copy of the subtree nothing happens. -/
theorem moveEntry_noMem {root src : Bytes} {c : List (Frame Bytes)} {l r : Tree} {n : Bytes}
    {e : Entry Bytes} (h : Represents b root (plug c (l ++ cons n e r)))
    (hsrc : b.getPathOffset src = runPos b.firstNameOff c + entriesSize l) (heap : Heap)
    (hk : e.kids ≠ .nil) (hmalloc : heap.malloc (treeSize e.kids) = false) (dst : Bytes)
    (srcIsFile : Bool) (dstOff : ℕ) (changes : List FsChange) :
    b.moveEntry heap src dst srcIsFile dstOff changes = some (.noMem, b, []) := by
  rcases doRemovePath_entry h hsrc heap.malloc changes true with ⟨-, -, -, heq⟩ | ⟨hnot, -⟩
  · rw [moveEntry, heq]
    rfl
  · exact absurd ⟨rfl, hk, hmalloc⟩ hnot

/-! ## The checks -/

/-- What `do_rename_path` checks before it changes anything. -/
structure RenameAccepted (b : FsBuf) (src dst : Bytes) : Prop where
  source : b.getPathOffset src ≠ 0
  not_root : b.getPathOffset dst ≠ dataStart
  same_kind : b.getPathOffset dst ≠ 0 →
    b.doIsFile (b.getPathOffset dst) = b.doIsFile (b.getPathOffset src)
  no_kids : b.getPathOffset dst ≠ 0 → b.doIsFile (b.getPathOffset src) = false →
    b.getKidsOffset (b.getPathOffset dst) = 0
  parent : ∃ parent name, strrchrSlash dst = some (parent, name) ∧ name ≠ [] ∧
    b.getPathOffset parent ≠ 0 ∧
    ¬ (b.getPathOffset parent = dataStart ∧ b.doIsFile (b.getPathOffset parent) = true)

/-- A rename is refused and leaves the buffer, or it passes the checks and moves. -/
theorem doRenamePath_cases (b : FsBuf) (heap : Heap) (src dst : Bytes) (changes : List FsChange) :
    (¬ RenameAccepted b src dst ∧
      ∃ ret, ret ≠ .ok ∧ b.doRenamePath heap src dst changes = some (ret, b, changes)) ∨
    (RenameAccepted b src dst ∧ b.doRenamePath heap src dst changes =
      b.moveEntry heap src dst (b.doIsFile (b.getPathOffset src)) (b.getPathOffset dst) changes) := by
  rw [doRenamePath]
  simp only
  by_cases hsrc : b.getPathOffset src = 0
  · rw [if_pos hsrc]
    exact .inl ⟨fun h => h.source hsrc, _, by simp, rfl⟩
  rw [if_neg hsrc]
  by_cases hroot : b.getPathOffset dst = dataStart
  · rw [if_pos hroot]
    exact .inl ⟨fun h => h.not_root hroot, _, by simp, rfl⟩
  rw [if_neg hroot]
  by_cases hkind : b.getPathOffset dst ≠ 0 ∧
      b.doIsFile (b.getPathOffset dst) ≠ b.doIsFile (b.getPathOffset src)
  · rw [if_pos hkind]
    exact .inl ⟨fun h => hkind.2 (h.same_kind hkind.1), _, by simp, rfl⟩
  rw [if_neg hkind]
  by_cases hfull : b.getPathOffset dst ≠ 0 ∧ b.doIsFile (b.getPathOffset src) = false ∧
      b.getKidsOffset (b.getPathOffset dst) ≠ 0
  · rw [if_pos hfull]
    exact .inl ⟨fun h => hfull.2.2 (h.no_kids hfull.1 hfull.2.1), _, by simp, rfl⟩
  rw [if_neg hfull]
  have hkind' : b.getPathOffset dst ≠ 0 →
      b.doIsFile (b.getPathOffset dst) = b.doIsFile (b.getPathOffset src) := by
    intro h0
    by_contra hne
    exact hkind ⟨h0, hne⟩
  have hfull' : b.getPathOffset dst ≠ 0 → b.doIsFile (b.getPathOffset src) = false →
      b.getKidsOffset (b.getPathOffset dst) = 0 := by
    intro h0 hdir
    by_contra hne
    exact hfull ⟨h0, hdir, hne⟩
  cases hsplit : strrchrSlash dst with
  | none =>
    refine .inl ⟨fun h => ?_, _, by simp, rfl⟩
    obtain ⟨parent, name, hsome, -⟩ := h.parent
    simp [hsplit] at hsome
  | some s =>
    obtain ⟨parent, name⟩ := s
    have hsame : ∀ p n, strrchrSlash dst = some (p, n) → parent = p ∧ name = n := by
      intro p n hp
      simpa [hsplit] using hp
    simp only
    by_cases hname : name = []
    · rw [if_pos hname]
      refine .inl ⟨fun h => ?_, _, by simp, rfl⟩
      obtain ⟨p, n, hp, hn, -⟩ := h.parent
      exact hn ((hsame p n hp).2 ▸ hname)
    rw [if_neg hname]
    by_cases hparent : b.getPathOffset parent = 0 ∨
        (b.getPathOffset parent = dataStart ∧ b.doIsFile (b.getPathOffset parent) = true)
    · rw [if_pos hparent]
      refine .inl ⟨fun h => ?_, _, by simp, rfl⟩
      obtain ⟨p, n, hp, -, h0, hfile⟩ := h.parent
      obtain ⟨rfl, rfl⟩ := hsame p n hp
      exact hparent.elim h0 hfile
    · rw [if_neg hparent]
      push Not at hparent
      exact .inr ⟨⟨hsrc, hroot, hkind', hfull', parent, name, hsplit, hname, hparent.1,
        fun h => hparent.2 h.1 h.2⟩, rfl⟩

/-- What `rename_path` comes to for a source that is an entry, when its checks pass. -/
theorem renamePath_entry {root src : Bytes} {t : Tree} (h : Represents b root t) {q : List Bytes}
    {n : Bytes} {e : Entry Bytes} (hres : resolve root t src = some (q ++ [n]))
    (hentry : t.entryAt (q ++ [n]) = some e) (heap : Heap) {dst : CPath}
    (hok : b.RenameAccepted src dst.bytes) (changes : List FsChange) {mid : Tree}
    (hmid : renameMid b root heap.realloc dst.bytes e.isNode (decide (b.getPathOffset dst.bytes ≠ 0))
      (t.remove q n) = mid) :
    (e.kids ≠ .nil ∧ heap.malloc (treeSize e.kids) = false ∧
      b.renamePath heap src dst.bytes changes = some (.noMem, b, [])) ∨
    (¬ (e.kids ≠ .nil ∧ heap.malloc (treeSize e.kids) = false) ∧
      (RenameSafe b root heap.realloc dst.bytes (decide (b.getPathOffset dst.bytes ≠ 0)) e
          (t.remove q n) →
        ∃ ret b' changes' t', b.renamePath heap src dst.bytes changes = some (ret, b', changes') ∧
          Represents b' root t' ∧ (ret = .ok → e.kids = .nil → t' = mid) ∧
          (ret = .ok → e.kids ≠ .nil → ∃ q', resolve root mid dst.bytes = some q' ∧
            t' = mid.setKids q' e.kids) ∧ (ret ≠ .ok → t' = t ∨ t' = mid))) := by
  subst hmid
  rcases doRenamePath_cases b heap src dst.bytes changes with ⟨hnot, -⟩ | ⟨-, heq⟩
  · exact absurd hok hnot
  rw [renamePath, heq]
  rcases h.lookup_cases src with ⟨hnone, -⟩ | ⟨hroot, -⟩ | ⟨c, l, r, n', e', rfl, hc, hl, hat, hoff⟩
  · simp [hnone] at hres
  · simp [hroot] at hres
  rw [hat, Option.some.injEq] at hres
  obtain ⟨rfl, hn⟩ := List.append_inj' hres rfl
  obtain rfl : n' = n := by simpa using hn
  obtain rfl : e' = e := by
    exact Option.some.inj ((entryAt_plug_cons hc e' hl).symm.trans hentry)
  rw [remove_plug hc hl, hoff, h.entryFacts.isFile]
  by_cases hfail : e'.kids ≠ .nil ∧ heap.malloc (treeSize e'.kids) = false
  · exact .inl ⟨hfail.1, hfail.2, moveEntry_noMem h hoff heap hfail.1 hfail.2 _ _ _ _⟩
  · exact .inr ⟨hfail, fun hsafe => moveEntry_spec h hoff heap hsafe changes⟩

end FsBuf

end DeepinAnything
