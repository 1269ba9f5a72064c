import DeepinAnything.Walkdir.Basic
import DeepinAnything.FsBuf.Insert

/-!
# The image that the walk builds

`walkTree` is the directory tree that a walk meets, `walkdir_spec` says that `walkdir` appends its
image. The proof follows the code: a run is appended with all kids offsets 0, and the loop over
the siblings turns it into the run of the tree from front to back.
-/

namespace DeepinAnything

open ByteMem OrderedForest OrderedForest.Forest

/-! ## The tree below a path -/

/-- The entries a walk reports of a directory, without what is below them. -/
def listTree : List Dirent → Tree
  | [] => .nil
  | de :: des =>
    if de.isSkipped then listTree des
    else cons de.name (newEntry (decide (de.type = .dir))) (listTree des)

/-- The siblings with what `f` gives below each directory. -/
def fillKids (f : Bytes → Option Tree) : Tree → Option Tree
  | .nil => some .nil
  | .leaf n r => (fillKids f r).map (Forest.leaf n)
  | .node n _ r =>
    match f n, fillKids f r with
    | some k, some r => some (.node n k r)
    | _, _ => none

namespace WalkEnv

variable (env : WalkEnv)

/-- What `walkdir` sees of a path: nothing when it leaves it out or cannot open it. -/
def listing (p : Bytes) : Tree :=
  if env.shouldSkipPath p then .nil
  else
    match env.opendir p with
    | none => .nil
    | some des => listTree des

/-- The tree below a path, when the path of an entry is `child`; `none` when it is deeper than the
fuel. -/
def walkTree (child : Bytes → Bytes → Bytes) : ℕ → Bytes → Option Tree
  | 0, _ => none
  | fuel + 1, p => fillKids (fun n => walkTree child fuel (child p n)) (env.listing p)

/-- What an operating system promises of a listing: the names are names, no two alike, and fit
`d_name`. -/
def Sane : Prop :=
  ∀ p des, env.opendir p = some des →
    (des.map Dirent.name).Nodup ∧ ∀ de ∈ des, NameOk de.name ∧ de.name.length < 256

end WalkEnv

theorem fillKids_leaf_eq_some {f : Bytes → Option Tree} {n : Bytes} {r t : Tree} :
    fillKids f (.leaf n r) = some t ↔ ∃ r', fillKids f r = some r' ∧ t = .leaf n r' := by
  rw [fillKids, Option.map_eq_some_iff]
  exact exists_congr fun _ => and_congr_right fun _ => eq_comm

theorem fillKids_node_eq_some {f : Bytes → Option Tree} {n : Bytes} {k₀ r t : Tree} :
    fillKids f (.node n k₀ r) = some t ↔
      ∃ k r', f n = some k ∧ fillKids f r = some r' ∧ t = .node n k r' := by
  rw [fillKids]
  cases f n with
  | none => simp
  | some k =>
    cases fillKids f r with
    | none => simp
    | some s => simp [eq_comm]

theorem entriesSize_fillKids {f : Bytes → Option Tree} {r r' : Tree} (h : fillKids f r = some r') :
    entriesSize r' = entriesSize r := by
  induction r generalizing r' with
  | nil =>
    obtain rfl : Forest.nil = r' := by simpa [fillKids] using h
    rfl
  | leaf n r ih =>
    obtain ⟨s, hs, rfl⟩ := fillKids_leaf_eq_some.mp h
    simp [ih hs]
  | node n k r _ ih =>
    obtain ⟨k', s, -, hs, rfl⟩ := fillKids_node_eq_some.mp h
    simp [ih hs]

/-! ## Appending -/

/-- `size` bytes have been appended and nothing else has changed. -/
structure Appended (b b' : FsBuf) (size : ℕ) : Prop where
  sized : b'.Sized
  first_eq : b'.firstNameOff = b.firstNameOff
  tail_eq : b'.tail = b.tail + size
  capacity_le : b.capacity ≤ b'.capacity
  before : ∀ i < b.tail, b'.head.get i = b.head.get i

theorem Appended.refl {b : FsBuf} (hb : b.Sized) : Appended b b 0 :=
  ⟨hb, rfl, rfl, le_rfl, fun _ _ => rfl⟩

theorem Appended.trans {b₁ b₂ b₃ : FsBuf} {m n : ℕ} (h : Appended b₁ b₂ m) (h' : Appended b₂ b₃ n) :
    Appended b₁ b₃ (m + n) := by
  have htail := h.tail_eq
  refine ⟨h'.sized, h'.first_eq.trans h.first_eq, ?_, h.capacity_le.trans h'.capacity_le, ?_⟩
  · rw [h'.tail_eq, htail, Nat.add_assoc]
  · intro i hi
    rw [h'.before i (by omega), h.before i hi]

namespace FsBuf

variable {b : FsBuf}

theorem appendNewName_cases (hb : b.Sized) (realloc : ℕ → Bool) {name : Bytes} (isDir : Bool)
    (hlen : name.length < 256) :
    (b.appendNewName realloc name isDir = none ∧ b.capacity ≤ b.tail + newEntrySize name isDir) ∨
    ∃ b', b.appendNewName realloc name isDir = some b' ∧
      Appended b b' (newEntrySize name isDir) ∧ b'.head.Holds b.tail (entryBytes name isDir) := by
  rcases insertNewName_cases hb realloc b.tail isDir false (show name.length < 2 ^ 31 by omega) with
    ⟨hfail, heq⟩ | ⟨-, b', heq, hins⟩
  · exact .inl ⟨heq, hfail.1⟩
  · exact .inr ⟨b', heq, ⟨hins.sized, hins.first_eq, hins.tail_eq, hins.capacity_le, hins.before⟩,
      hins.entry⟩

theorem appendParent_cases (hb : b.Sized) (realloc : ℕ → Bool) (parentOff rel : ℕ)
    (hparent : parentOff = if rel = 0 then 0 else b.tail + 1 - rel) (hle : rel ≤ b.tail) :
    (b.appendParent realloc parentOff = none ∧ b.capacity ≤ b.tail + 5) ∨
    ∃ b', b.appendParent realloc parentOff = some b' ∧ Appended b b' 5 ∧ UpAt b'.head b.tail rel := by
  have hmax := hb.tail_le_max
  rw [appendParent]
  rcases grow_cases hb realloc 5 (by omega) with
    ⟨hfail, hgrow⟩ | ⟨-, capacity, hcapacity, hroom, hcap, hgrow⟩
  · exact .inl ⟨by simp only [Nat.reduceAdd, hgrow, Option.map_none], hfail.1⟩
  · have hcap' : capacity ≤ 2 ^ 30 := hcap
    have hset := setParentOffset_eq (b := { b with capacity := capacity }) rel hparent hle (by omega)
    have hu32 : u32 (b.tail + (1 + 4)) = b.tail + 5 := u32_of_lt (by omega)
    refine .inr ⟨_, by simp only [Nat.reduceAdd, hgrow, Option.map_some]; rfl, ?_, ?_⟩
    · refine ⟨⟨?_, ?_⟩, ?_, ?_, ?_, fun i hi => ?_⟩ <;> simp only [hset, hu32]
      · exact hroom
      · exact hcap
      · exact hcapacity
      · rw [Mem.store_get_of_not_mem (by omega)]
    · simp only [hset]
      exact Mem.holds_store _ _

end FsBuf

namespace WalkEnv

variable {env : WalkEnv}

/-- A failure stays on record. -/
theorem readEntries_failed (hpcf : ∀ f d n e, env.pcf f d n e = false) (name : Bytes)
    (des : List Dirent) (b : FsBuf) (pr : ProgressReport) (hpr : pr.failed = true) :
    ∃ b' pr', env.readEntries name des b pr = (false, b', pr') ∧ pr'.failed = true := by
  induction des generalizing b pr with
  | nil => exact ⟨b, pr, rfl, hpr⟩
  | cons de des ih =>
    rw [readEntries]
    by_cases hskip : de.isSkipped
    · simpa [hskip] using ih b pr hpr
    · simp only [hskip, hpcf, Bool.false_eq_true, if_false]
      exact ih _ _ (by simp [hpr])

/-- The `readdir` loop appends the entries of the listing, or an append fails. -/
theorem readEntries_spec (hpcf : ∀ f d n e, env.pcf f d n e = false) (name : Bytes)
    {des : List Dirent} (hdes : ∀ de ∈ des, NameOk de.name ∧ de.name.length < 256) {b : FsBuf}
    (hb : b.Sized) (pr : ProgressReport) :
    ∃ b' pr', env.readEntries name des b pr = (false, b', pr') ∧
      ((pr'.failed = pr.failed ∧ Appended b b' (entriesSize (listTree des)) ∧
          ∀ d, EntriesAt b'.head b.tail d (listTree des)) ∨
        (pr'.failed = true ∧ b.capacity ≤ b.tail + entriesSize (listTree des))) := by
  induction des generalizing b pr with
  | nil => exact ⟨b, pr, rfl, .inl ⟨rfl, Appended.refl hb, fun _ => trivial⟩⟩
  | cons de des ih =>
    obtain ⟨hn, hlen⟩ := hdes de (by simp)
    have hdes' : ∀ de ∈ des, NameOk de.name ∧ de.name.length < 256 :=
      fun de' h => hdes de' (by simp [h])
    rw [readEntries, listTree]
    by_cases hskip : de.isSkipped
    · simp only [hskip, if_true]
      exact ih hdes' hb pr
    simp only [hskip, hpcf, Bool.false_eq_true, if_false]
    generalize hisDir : decide (de.type = .dir) = isDir
    have hsize : ∀ t : Tree, entriesSize (cons de.name (newEntry isDir) t) =
        FsBuf.newEntrySize de.name isDir + entriesSize t := by
      intro t
      cases isDir <;> simp [newEntry, FsBuf.newEntrySize]
    rw [hsize]
    rcases FsBuf.appendNewName_cases hb env.realloc isDir hlen with ⟨hnone, hcap⟩ | ⟨b₁, hsome, happ, hent⟩
    · -- the entry is lost
      simp only [hnone, Option.getD_none, Option.isNone_none, Bool.or_true]
      obtain ⟨b', pr', heq, hfailed⟩ := readEntries_failed hpcf name des b
        ⟨if isDir then pr.fileCount else pr.fileCount + 1,
          if isDir then pr.dirCount + 1 else pr.dirCount, true⟩ rfl
      exact ⟨b', pr', heq, .inr ⟨hfailed, by omega⟩⟩
    · simp only [hsome, Option.getD_some, Option.isNone_some, Bool.or_false]
      have htail := happ.tail_eq
      have hcap := happ.capacity_le
      obtain ⟨b', pr', heq, hcase⟩ := ih hdes' happ.sized
        ⟨if isDir then pr.fileCount else pr.fileCount + 1,
          if isDir then pr.dirCount + 1 else pr.dirCount, pr.failed⟩
      refine ⟨b', pr', heq, ?_⟩
      rcases hcase with ⟨hfailed, happ', hents⟩ | ⟨hfailed, hcap'⟩
      · refine .inl ⟨hfailed, happ.trans happ', fun d => ?_⟩
        have hhead := entriesAt_newEntry hent (d + entriesSize (listTree des))
        have hcons : cons de.name (newEntry isDir) (listTree des) =
            cons de.name (newEntry isDir) .nil ++ listTree des := by
          rw [cons_append, nil_append]
        rw [hcons, entriesAt_append, entriesSize_newEntry, belowSize_newEntry]
        refine ⟨hhead.congr fun i hi => happ'.before _ ?_, htail ▸ hents _⟩
        rw [entriesSize_newEntry] at hi
        omega
      · exact .inr ⟨hfailed, by omega⟩

/-! ## The siblings of a run -/

/-- One directory of the loop. -/
theorem walkSiblings_dir {walk : Bytes → FsBuf → ℕ → ProgressReport → Walk} {name : Bytes}
    {stop off : ℕ} {b : FsBuf} {w : Walk} (fuel : ℕ) (pr : ProgressReport) (hlt : off < stop)
    (hdir : b.doIsFile off = false)
    (hw : walk (walkPath name ((b.doSetKidsOff off b.tail).strAt off)) (b.doSetKidsOff off b.tail) off
      pr = w) :
    walkSiblings walk name stop (fuel + 1) b off pr =
      if w.1 = .cancelled ∨ w.1 = .unfinished then w
      else
        let b' := if w.1 = .emptyDir then w.2.1.doSetKidsOff off 0 else w.2.1
        walkSiblings walk name stop fuel b' (b'.nextName off) w.2.2 := by
  subst hw
  rw [walkSiblings, if_pos hlt, hdir]
  rfl

theorem walkSiblings_failed {walk : Bytes → FsBuf → ℕ → ProgressReport → Walk}
    (hwalk : ∀ p b off pr, pr.failed = true → (walk p b off pr).2.2.failed = true) (name : Bytes)
    (stop fuel off : ℕ) (b : FsBuf) (pr : ProgressReport) (hpr : pr.failed = true) :
    (walkSiblings walk name stop fuel b off pr).2.2.failed = true := by
  induction fuel generalizing b off pr with
  | zero => exact hpr
  | succ fuel ih =>
    by_cases hlt : off < stop
    · by_cases hfile : b.doIsFile off
      · rw [walkSiblings, if_pos hlt, if_pos hfile]
        exact ih _ _ _ hpr
      · rw [walkSiblings_dir fuel pr hlt (by simpa using hfile) rfl]
        split
        · exact hwalk _ _ _ _ hpr
        · exact ih _ _ _ (hwalk _ _ _ _ hpr)
    · rw [walkSiblings, if_neg hlt]
      exact hpr

theorem walkdir_failed (hpcf : ∀ f d n e, env.pcf f d n e = false) (fuel : ℕ) (name : Bytes)
    (b : FsBuf) (parentOff : ℕ) (pr : ProgressReport) (hpr : pr.failed = true) :
    (env.walkdir fuel name b parentOff pr).2.2.failed = true := by
  induction fuel generalizing name b parentOff pr with
  | zero => exact hpr
  | succ fuel ih =>
    rw [walkdir]
    split
    · exact hpr
    simp only [hpcf, Bool.false_eq_true, if_false]
    split
    · exact hpr
    · rename_i des _
      obtain ⟨b₁, pr₁, heq, hfailed⟩ := readEntries_failed hpcf name des b pr hpr
      simp only [heq, Bool.false_eq_true, if_false]
      split
      · exact hfailed
      · exact walkSiblings_failed ih _ _ _ _ _ _ (by simp [hfailed])

end WalkEnv

/-- No sibling has anything below it yet. -/
def Bare : Tree → Prop
  | .nil => True
  | .leaf _ r => Bare r
  | .node _ k r => k = .nil ∧ Bare r

theorem bare_listTree (des : List Dirent) : Bare (listTree des) := by
  induction des with
  | nil => trivial
  | cons de des ih =>
    rw [listTree]
    split
    · exact ih
    · cases decide (de.type = .dir)
      · exact ih
      · exact ⟨rfl, ih⟩

theorem EntriesAt.of_bare {m : Mem} {off d : ℕ} {r : Tree} (hr : Bare r) (h : EntriesAt m off d r)
    (d' : ℕ) : EntriesAt m off d' r := by
  induction r generalizing off d d' with
  | nil => trivial
  | leaf n r ih => exact ⟨h.1, ih hr h.2 _⟩
  | node n k r _ ih =>
    obtain ⟨rfl, hr⟩ := hr
    exact ⟨by simpa using h.1, ih hr h.2 _⟩

/-- The parent tag of a run appended at `tail`. -/
def walkUp (tail parentOff : ℕ) (t : Tree) : ℕ :=
  if parentOff = 0 then 0 else tail + entriesSize t + 1 - parentOff

/-- What a walk comes to: it has not ended, the image of the tree is appended, or an append failed,
for which the tree has to be larger than the room there was. -/
def WalkOutcome (t? : Option Tree) (b : FsBuf) (parentOff : ℕ) (pr : ProgressReport) (w : Walk) :
    Prop :=
  (w.1 = .unfinished ∧ t? = none ∧ w.2.2.failed = pr.failed) ∨
  (∃ t, t? = some t ∧ w.1 = (if t = .nil then .emptyDir else .nonemptyDir) ∧
    w.2.2.failed = pr.failed ∧ Appended b w.2.1 (treeSize t) ∧
    TreeAt w.2.1.head b.tail (walkUp b.tail parentOff t) t) ∨
  (w.2.2.failed = true ∧ ∀ t, t? = some t → b.capacity ≤ b.tail + treeSize t)

/-- The run at `off` is that of `r` with all offsets set, and the images below it are appended. -/
structure Filled (b b' : FsBuf) (off stop d : ℕ) (r : Tree) : Prop where
  sized : b'.Sized
  first_eq : b'.firstNameOff = b.firstNameOff
  tail_eq : b'.tail = b.tail + belowSize r
  capacity_le : b.capacity ≤ b'.capacity
  entries : EntriesAt b'.head off d r
  below : BelowAt b'.head b.tail d r
  frame : ∀ i, i < off ∨ stop ≤ i ∧ i < b.tail → b'.head.get i = b.head.get i

namespace WalkEnv

variable {env : WalkEnv}

/-- Setting the kids offset of an entry of the run. -/
theorem setKids_of_dir {b : FsBuf} (hb : b.Sized) {off rel : ℕ} {n : Bytes} (h : DirAt b.head off n rel)
    (hn : NameOk n) (kids rel' : ℕ) (hkids : kids = if rel' = 0 then 0 else off + n.length + 1 + rel')
    (hfit : off + n.length + 5 ≤ b.tail) (hle : off + n.length + 1 + rel' ≤ 2 ^ 30) :
    ∃ m', b.doSetKidsOff off kids = { b with head := m' } ∧ DirAt m' off n rel' ∧
      ∀ i, i < off ∨ off + n.length + 5 ≤ i → m'.get i = b.head.get i := by
  have hcap := hb.tail_le
  refine ⟨_, FsBuf.doSetKidsOff_eq (FsBuf.strAt_of_dir h hn (by omega)) hkids hle, h.store_tag _,
    fun i hi => ?_⟩
  rw [Mem.store_get_of_not_mem (by simp only [length_le32]; omega)]

/-- The buffer `b₁` in which the first entry of the run at `off` is done, with `k` below it. -/
structure EntryDone (b b₁ : FsBuf) (off d : ℕ) (n : Bytes) (k r : Tree) : Prop where
  sized : b₁.Sized
  first_eq : b₁.firstNameOff = b.firstNameOff
  tail_eq : b₁.tail = b.tail + treeSize k
  capacity_le : b.capacity ≤ b₁.capacity
  dir : DirAt b₁.head off n (if k = .nil then 0 else 9 + entriesSize r + d)
  image : TreeAt b₁.head b.tail (n.length + 11 + entriesSize r + d + entriesSize k) k
  frame : ∀ i, i < off ∨ off + n.length + 5 ≤ i ∧ i < b.tail → b₁.head.get i = b.head.get i

theorem EntryDone.filled {b b₁ b' : FsBuf} {off stop d : ℕ} {n : Bytes} {k r r' : Tree}
    (h : EntryDone b b₁ off d n k r) (hsize : entriesSize r' = entriesSize r)
    (hstop : off + n.length + 5 ≤ stop) (hle : stop ≤ b.tail)
    (hr : Filled b₁ b' (off + n.length + 5) stop (d + treeSize k) r') :
    Filled b b' off stop d (.node n k r') := by
  have htail := h.tail_eq
  have hbelow := hr.below
  rw [htail] at hbelow
  have himage : TreeAt b'.head b.tail (n.length + 11 + entriesSize r + d + entriesSize k) k :=
    h.image.congr fun i hi => hr.frame _ (by omega)
  refine ⟨hr.sized, hr.first_eq.trans h.first_eq, ?_, h.capacity_le.trans hr.capacity_le,
    ⟨?_, hr.entries⟩, ⟨?_, himage.2, hbelow⟩, fun i hi => ?_⟩
  · rw [hr.tail_eq, htail, belowSize_node, Nat.add_assoc]
  · rw [hsize]
    exact h.dir.congr fun i hi => hr.frame _ (by omega)
  · rw [hsize]
    exact himage.1
  · rw [hr.frame i (by omega), h.frame i (by omega)]

/-- After the walk below a directory the kids offset stays, or is taken back when nothing was
found. -/
theorem entryDone_of_appended {b b₂ : FsBuf} {off d : ℕ} {n : Bytes} {k r : Tree} {m₁ : Mem}
    (hn : NameOk n) (htail : b.tail = off + n.length + 10 + entriesSize r + d) (hoff : 0 < off)
    (hframe : ∀ i, i < off ∨ off + n.length + 5 ≤ i → m₁.get i = b.head.get i)
    (hdir : DirAt m₁ off n (9 + entriesSize r + d))
    (happ : Appended { b with head := m₁ } b₂ (treeSize k))
    (himage : TreeAt b₂.head b.tail (walkUp b.tail off k) k) :
    EntryDone b (if k = .nil then b₂.doSetKidsOff off 0 else b₂) off d n k r ∧
      (if k = .nil then b₂.doSetKidsOff off 0 else b₂).nextName off = off + n.length + 5 := by
  have htail₂ := happ.tail_eq
  have hcap₂ := happ.sized.tail_le
  have hmax₂ := happ.sized.tail_le_max
  have hbefore := happ.before
  simp only at htail₂ hbefore
  have hdir₂ : DirAt b₂.head off n (9 + entriesSize r + d) :=
    hdir.congr fun i hi => hbefore _ (by omega)
  by_cases hk : k = .nil
  · subst hk
    obtain ⟨m₃, hset, hdir₃, hframe₃⟩ := setKids_of_dir happ.sized hdir₂ hn 0 0 rfl (by omega)
      (by omega)
    rw [if_pos rfl, hset]
    refine ⟨⟨happ.sized.with_head m₃, happ.first_eq, htail₂, happ.capacity_le, by simpa using hdir₃,
      ⟨fun h => absurd rfl h, trivial⟩, fun i hi => ?_⟩, ?_⟩
    · simp only
      rw [hframe₃ i (by omega), hbefore i (by omega), hframe i (by omega)]
    · exact FsBuf.nextName_of_dir (b := { b₂ with head := m₃ }) hdir₃ hn (by simp only; omega)
  · have hup : walkUp b.tail off k = n.length + 11 + entriesSize r + d + entriesSize k := by
      rw [walkUp, if_neg (by omega)]
      omega
    rw [if_neg hk]
    refine ⟨⟨happ.sized, happ.first_eq, htail₂, happ.capacity_le, by simpa [hk] using hdir₂,
      hup ▸ himage, fun i hi => ?_⟩, FsBuf.nextName_of_dir hdir₂ hn (by omega)⟩
    rw [hbefore i (by omega), hframe i (by omega)]

/-- The loop of `walkdir` over the siblings, when `walk` does below each what it should. -/
theorem walkSiblings_spec {walk : Bytes → FsBuf → ℕ → ProgressReport → Walk} {name : Bytes}
    {f : Bytes → Option Tree}
    (hfailed : ∀ p b off pr, pr.failed = true → (walk p b off pr).2.2.failed = true)
    (hwalk : ∀ n b off pr, b.Sized → 0 < off → off < b.tail →
      WalkOutcome (f n) b off pr (walk (walkPath name n) b off pr))
    {stop off d : ℕ} {b : FsBuf} {r : Tree} (fuel : ℕ) (pr : ProgressReport) (hb : b.Sized)
    (hent : EntriesAt b.head off d r) (hbare : Bare r) (hv : r.Valid NameOk)
    (hstop : off + entriesSize r = stop) (htail : b.tail = stop + 5 + d) (hoff : 0 < off)
    (hfuel : r.names.length ≤ fuel) {w : Walk}
    (hw : walkSiblings walk name stop fuel b off pr = w) :
    (w.1 = .unfinished ∧ fillKids f r = none ∧ w.2.2.failed = pr.failed) ∨
    (∃ r', fillKids f r = some r' ∧ w.1 = .nonemptyDir ∧ w.2.2.failed = pr.failed ∧
      Filled b w.2.1 off stop d r') ∨
    (w.2.2.failed = true ∧ ∀ r', fillKids f r = some r' → b.capacity ≤ b.tail + belowSize r') := by
  have hmax := hb.tail_le_max
  have hcap := hb.tail_le
  induction r generalizing off d b fuel pr with
  | nil =>
    have hstay : walkSiblings walk name stop fuel b off pr = (.nonemptyDir, b, pr) := by
      cases fuel with
      | zero => rfl
      | succ fuel => rw [walkSiblings, if_neg (by simp at hstop; omega)]
    rw [hstay] at hw
    subst hw
    exact .inr (.inl ⟨.nil, rfl, rfl, rfl, hb, rfl, rfl, le_rfl, trivial, trivial, fun _ _ => rfl⟩)
  | leaf n r ih =>
    simp only [names_leaf, List.length_cons, entriesSize_leaf] at hfuel hstop
    obtain ⟨fuel, rfl⟩ : ∃ k, fuel = k + 1 := ⟨fuel - 1, by omega⟩
    have hfile := FsBuf.doIsFile_of_file hent.1 hv.1 (by omega)
    rw [walkSiblings, if_pos (by omega), if_pos hfile,
      FsBuf.nextName_of_file hent.1 hv.1 (by omega)] at hw
    rcases ih fuel pr hb hent.2 hbare hv.2.2 (by omega) htail (by omega) (by omega) hw hmax hcap with
      ⟨hres, hnone, hpr⟩ | ⟨r', hfill, hres, hpr, h⟩ | ⟨hpr, hcapacity⟩
    · exact .inl ⟨hres, by rw [fillKids, hnone]; rfl, hpr⟩
    · refine .inr (.inl ⟨.leaf n r', fillKids_leaf_eq_some.mpr ⟨r', hfill, rfl⟩, hres, hpr, h.sized,
        h.first_eq, h.tail_eq, h.capacity_le, ⟨?_, h.entries⟩, h.below, fun i hi => h.frame i (by omega)⟩)
      exact hent.1.congr fun i hi => h.frame _ (by omega)
    · refine .inr (.inr ⟨hpr, fun t ht => ?_⟩)
      obtain ⟨s, hs, rfl⟩ := fillKids_leaf_eq_some.mp ht
      exact hcapacity s hs
  | node n k r _ ih =>
    obtain ⟨rfl, hbare⟩ := hbare
    simp only [names_node, List.length_cons, entriesSize_node] at hfuel hstop
    obtain ⟨fuel, rfl⟩ : ∃ k, fuel = k + 1 := ⟨fuel - 1, by omega⟩
    obtain ⟨m₁, hset, hdir₁, hframe₁⟩ := setKids_of_dir hb hent.1 hv.1 b.tail (9 + entriesSize r + d)
      (by rw [if_neg (by omega)]; omega) (by omega) (by omega)
    have hstr := FsBuf.strAt_of_dir (b := { b with head := m₁ }) hdir₁ hv.1 (by simp only; omega)
    generalize hw₂ : walk (walkPath name n) { b with head := m₁ } off pr = w₂
    have hout := hwalk n { b with head := m₁ } off pr (hb.with_head m₁) hoff (by simp only; omega)
    rw [hw₂] at hout
    rw [walkSiblings_dir fuel pr (by omega) (FsBuf.doIsFile_of_dir hent.1 hv.1 (by omega)) (w := w₂)
      (by rw [hset, hstr, hw₂])] at hw
    rcases hout with ⟨hres₂, hk, hpr₂⟩ | ⟨k, hk, hres₂, hpr₂, happ, himage⟩ | ⟨hpr₂, hcapacity⟩
    · rw [if_pos (.inr hres₂)] at hw
      subst hw
      exact .inl ⟨hres₂, by rw [fillKids, hk], hpr₂⟩
    · obtain ⟨hdone, hnext⟩ := entryDone_of_appended hv.1 (by omega) hoff hframe₁ hdir₁ happ himage
      have hempty : w₂.1 = .emptyDir ↔ k = .nil := by
        rw [hres₂]
        by_cases h : k = .nil <;> simp [h]
      have hgo : ¬ (w₂.1 = .cancelled ∨ w₂.1 = .unfinished) := by
        rw [hres₂]
        by_cases h : k = .nil <;> simp [h]
      rw [if_neg hgo] at hw
      simp only [hempty, hnext] at hw
      have htail₃ := hdone.tail_eq
      have hent₃ := (hent.2.congr fun i hi => hdone.frame _ (by omega)).of_bare hbare (d + treeSize k)
      rcases ih fuel w₂.2.2 hdone.sized hent₃ hbare hv.2.2.2 (by omega) (by omega) (by omega)
        (by omega) hw hdone.sized.tail_le_max hdone.sized.tail_le with
        ⟨hres, hnone, hpr⟩ | ⟨r', hfill, hres, hpr, h⟩ | ⟨hpr, hcapacity⟩
      · exact .inl ⟨hres, by rw [fillKids, hk, hnone], hpr.trans hpr₂⟩
      · exact .inr (.inl ⟨.node n k r', fillKids_node_eq_some.mpr ⟨k, r', hk, hfill, rfl⟩, hres,
          hpr.trans hpr₂, hdone.filled (entriesSize_fillKids hfill) (by omega) (by omega) h⟩)
      · refine .inr (.inr ⟨hpr, fun t ht => ?_⟩)
        obtain ⟨k', r', hk', hr', rfl⟩ := fillKids_node_eq_some.mp ht
        obtain rfl : k = k' := Option.some.inj (hk.symm.trans hk')
        have := hcapacity r' hr'
        have := hdone.capacity_le
        rw [belowSize_node]
        omega
    · refine .inr (.inr ⟨?_, fun t ht => ?_⟩)
      · rw [← hw]
        split
        · exact hpr₂
        · exact walkSiblings_failed hfailed _ _ _ _ _ _ hpr₂
      · obtain ⟨k', r', hk', -, rfl⟩ := fillKids_node_eq_some.mp ht
        have := hcapacity k' hk'
        simp only at this
        rw [belowSize_node]
        omega

theorem entriesSize_le_treeSize (t : Tree) : entriesSize t ≤ treeSize t := by
  by_cases h : t = .nil
  · simp [h]
  · rw [treeSize_of_ne_nil h]
    omega

theorem valid_listTree {des : List Dirent} (hnodup : (des.map Dirent.name).Nodup)
    (hdes : ∀ de ∈ des, NameOk de.name) : (listTree des).Valid NameOk := by
  have hnames : ∀ des : List Dirent, ∀ x ∈ (listTree des).names, x ∈ des.map Dirent.name := by
    intro des
    induction des with
    | nil => simp [listTree]
    | cons de des ih =>
      intro x hx
      rw [listTree] at hx
      split at hx
      · exact List.mem_cons_of_mem _ (ih x hx)
      · rw [names_cons] at hx
        rcases List.mem_cons.mp hx with rfl | hx
        · simp
        · exact List.mem_cons_of_mem _ (ih x hx)
  induction des with
  | nil => exact valid_nil
  | cons de des ih =>
    rw [List.map_cons, List.nodup_cons] at hnodup
    have hrest := ih hnodup.2 fun de' h => hdes de' (List.mem_cons_of_mem _ h)
    rw [listTree]
    split
    · exact hrest
    · rw [valid_cons]
      refine ⟨hdes de (by simp), fun h => hnodup.1 (hnames des _ h), ?_, hrest⟩
      cases decide (de.type = .dir) <;> exact valid_nil

/-- `walkdir` behind the `readdir` loop, when the listing is not empty. -/
theorem walkdir_run (hpcf : ∀ f d n e, env.pcf f d n e = false) {fuel : ℕ}
    (ih : ∀ name b parentOff pr, b.Sized → parentOff < b.tail →
      WalkOutcome (env.walkTree walkPath fuel name) b parentOff pr
        (env.walkdir fuel name b parentOff pr)) {name : Bytes} {des : List Dirent} {b b₁ : FsBuf}
    {parentOff : ℕ} {pr pr₁ : ProgressReport} (hparent : parentOff < b.tail)
    (hv : (listTree des).Valid NameOk) (hne : listTree des ≠ .nil) (hpr₁ : pr₁.failed = pr.failed)
    (happ : Appended b b₁ (entriesSize (listTree des)))
    (hent : ∀ d, EntriesAt b₁.head b.tail d (listTree des)) :
    WalkOutcome (fillKids (fun n => env.walkTree walkPath fuel (walkPath name n)) (listTree des)) b
      parentOff pr
      (walkSiblings (env.walkdir fuel) name b₁.tail b₁.tail
        ((b₁.appendParent env.realloc parentOff).getD b₁) b.tail
        { pr₁ with failed := pr₁.failed || (b₁.appendParent env.realloc parentOff).isNone }) := by
  have htail := happ.tail_eq
  have hcapacity := happ.capacity_le
  have hnames := length_names_le (listTree des)
  have hbare := bare_listTree des
  generalize listTree des = r at *
  have hrun : ∀ t, fillKids (fun n => env.walkTree walkPath fuel (walkPath name n)) r = some t →
      t ≠ .nil ∧ entriesSize t = entriesSize r ∧ treeSize t = entriesSize r + 5 + belowSize t := by
    intro t ht
    have hsize := entriesSize_fillKids ht
    have ht' : t ≠ .nil := by
      rintro rfl
      exact hne (entriesSize_eq_zero_iff.mp hsize.symm)
    exact ⟨ht', hsize, by rw [treeSize_of_ne_nil ht', hsize]⟩
  rcases FsBuf.appendParent_cases happ.sized env.realloc parentOff (walkUp b.tail parentOff r)
      (by rw [walkUp]; split <;> split <;> omega) (by rw [walkUp]; split <;> omega) with
    ⟨hnone, hcap⟩ | ⟨b₂, hsome, happ₂, hup⟩
  · refine .inr (.inr ⟨walkSiblings_failed (walkdir_failed hpcf fuel) _ _ _ _ _ _ (by simp [hnone]),
      fun t ht => ?_⟩)
    obtain ⟨-, -, hsize⟩ := hrun t ht
    omega
  · have htail₂ := happ₂.tail_eq
    have hcapacity₂ := happ₂.capacity_le
    simp only [hsome, Option.getD_some, Option.isNone_some, Bool.or_false]
    have hent₂ : EntriesAt b₂.head b.tail 0 r :=
      (hent 0).congr fun i hi => happ₂.before _ (by omega)
    rcases walkSiblings_spec (walkdir_failed hpcf fuel)
        (fun n b off pr hb _ hlt => ih (walkPath name n) b off pr hb hlt) b₁.tail pr₁ happ₂.sized hent₂
        hbare hv htail.symm (by omega) (by omega) (by omega) rfl with
      ⟨hres, hnone, hpr⟩ | ⟨t, hfill, hres, hpr, h⟩ | ⟨hpr, hcap⟩
    · exact .inl ⟨hres, hnone, hpr.trans hpr₁⟩
    · obtain ⟨ht, hsize, htree⟩ := hrun t hfill
      have hrunSize := runSize_of_ne_nil ht
      refine .inr (.inl ⟨t, hfill, by rw [hres, if_neg ht], hpr.trans hpr₁, ?_,
        fun _ => ⟨h.entries, ?_⟩, ?_⟩)
      · refine ⟨h.sized, h.first_eq.trans (happ₂.first_eq.trans happ.first_eq), ?_, ?_, fun i hi => ?_⟩
        · rw [h.tail_eq, htree]
          omega
        · exact (hcapacity.trans hcapacity₂).trans h.capacity_le
        · rw [h.frame i (by omega), happ₂.before i (by omega), happ.before i hi]
      · have hup' : walkUp b.tail parentOff t = walkUp b.tail parentOff r := by
          rw [walkUp, walkUp, hsize]
        rw [hup', hsize]
        rw [htail] at hup htail₂
        exact hup.congr fun i hi => h.frame _ (by omega)
      · rw [show b.tail + runSize t = b₂.tail by omega]
        exact h.below
    · refine .inr (.inr ⟨hpr, fun t ht => ?_⟩)
      obtain ⟨-, -, htree⟩ := hrun t ht
      have := hcap t ht
      omega

/-- `walkdir` appends the image of the tree it meets. -/
theorem walkdir_spec (hsane : env.Sane) (hpcf : ∀ f d n e, env.pcf f d n e = false) (fuel : ℕ)
    (name : Bytes) (b : FsBuf) (parentOff : ℕ) (pr : ProgressReport) (hb : b.Sized)
    (hparent : parentOff < b.tail) :
    WalkOutcome (env.walkTree walkPath fuel name) b parentOff pr
      (env.walkdir fuel name b parentOff pr) := by
  induction fuel generalizing name b parentOff pr with
  | zero => exact .inl ⟨rfl, rfl, rfl⟩
  | succ fuel ih =>
    have hempty : WalkOutcome (some .nil) b parentOff pr (.emptyDir, b, pr) :=
      .inr (.inl ⟨.nil, rfl, rfl, rfl, Appended.refl hb, fun h => absurd rfl h, trivial⟩)
    rw [walkTree, walkdir, listing]
    by_cases hskip : env.shouldSkipPath name
    · simpa only [hskip, if_true, fillKids] using hempty
    simp only [hskip, hpcf, Bool.false_eq_true, if_false]
    cases hopen : env.opendir name with
    | none => simpa only [fillKids] using hempty
    | some des =>
      obtain ⟨hnodup, hdes⟩ := hsane name des hopen
      obtain ⟨b₁, pr₁, heq, hcase⟩ := readEntries_spec hpcf name hdes hb pr
      simp only [heq, Bool.false_eq_true, if_false]
      rcases hcase with ⟨hpr₁, happ, hent⟩ | ⟨hpr₁, hcap⟩
      · have htail := happ.tail_eq
        by_cases hne : listTree des = .nil
        · rw [hne] at happ
          rw [if_pos (by simp [htail, hne]), hne]
          exact .inr (.inl ⟨.nil, rfl, rfl, hpr₁, happ, fun h => absurd rfl h, trivial⟩)
        · rw [if_neg (fun h => hne (entriesSize_eq_zero_iff.mp (by omega)))]
          exact walkdir_run hpcf ih hparent (valid_listTree hnodup fun de h => (hdes de h).1) hne hpr₁
            happ hent
      · refine .inr (.inr ⟨?_, fun t ht => ?_⟩)
        · split
          · exact hpr₁
          · exact walkSiblings_failed (walkdir_failed hpcf fuel) _ _ _ _ _ _ (by simp [hpr₁])
        · have hsize := entriesSize_fillKids ht
          have hle := entriesSize_le_treeSize t
          omega

/-! ## `build_fstree` -/

theorem valid_fillKids {f : Bytes → Option Tree} (hf : ∀ n k, f n = some k → k.Valid NameOk)
    {r t : Tree} (hr : r.Valid NameOk) (h : fillKids f r = some t) :
    t.Valid NameOk ∧ t.names = r.names := by
  induction r generalizing t with
  | nil =>
    obtain rfl : Forest.nil = t := by simpa [fillKids] using h
    exact ⟨valid_nil, rfl⟩
  | leaf n r ih =>
    obtain ⟨s, hs, rfl⟩ := fillKids_leaf_eq_some.mp h
    obtain ⟨hv, hnames⟩ := ih hr.2.2 hs
    exact ⟨⟨hr.1, hnames ▸ hr.2.1, hv⟩, by simp [hnames]⟩
  | node n k r _ ih =>
    obtain ⟨k', s, hk, hs, rfl⟩ := fillKids_node_eq_some.mp h
    obtain ⟨hv, hnames⟩ := ih hr.2.2.2 hs
    exact ⟨⟨hr.1, hnames ▸ hr.2.1, hf n k' hk, hv⟩, by simp [hnames]⟩

theorem valid_listing (hsane : env.Sane) (p : Bytes) : (env.listing p).Valid NameOk := by
  rw [listing]
  split
  · exact valid_nil
  · split
    · exact valid_nil
    · rename_i des hopen
      obtain ⟨hnodup, hdes⟩ := hsane p des hopen
      exact valid_listTree hnodup fun de h => (hdes de h).1

theorem valid_walkTree (hsane : env.Sane) {child : Bytes → Bytes → Bytes} {fuel : ℕ} {p : Bytes}
    {t : Tree} (h : env.walkTree child fuel p = some t) : t.Valid NameOk := by
  induction fuel generalizing p t with
  | zero => simp [walkTree] at h
  | succ fuel ih => exact (valid_fillKids (fun n k hk => ih hk) (valid_listing hsane p) h).1

/-- `build_fstree` on a buffer without entries makes it the image of the tree that the walk meets,
unless the walk does not end or an append fails, which takes a tree that is larger than the room
there was. -/
theorem buildFstree_spec (hsane : env.Sane) (hpcf : ∀ f d n e, env.pcf f d n e = false) {b : FsBuf}
    {root : Bytes} (h : Represents b root .nil) (fuel : ℕ) {c : Option Bool} {b' : FsBuf}
    {pr' : ProgressReport} (hbuild : env.buildFstree fuel b = (c, b', pr')) :
    (c = none ∧ env.walkTree walkPath fuel root = none ∧ pr'.failed = false) ∨
    (∃ t, env.walkTree walkPath fuel root = some t ∧ c = some false ∧ pr'.failed = false ∧
      Represents b' root t) ∨
    (pr'.failed = true ∧
      ∀ t, env.walkTree walkPath fuel root = some t → b.capacity ≤ b.tail + treeSize t) := by
  have htail := h.tail_eq
  have hfirst := h.first_eq
  simp only [treeSize_nil, Nat.add_zero] at htail
  have hout := walkdir_spec hsane hpcf fuel root b 0 ⟨0, 0, false⟩ h.sized (by omega)
  rw [buildFstree, h.getRootPath_eq] at hbuild
  generalize env.walkdir fuel root b 0 ⟨0, 0, false⟩ = w at hout hbuild
  obtain ⟨rfl, rfl, rfl⟩ : (if w.1 = .unfinished then none else some (decide (w.1 = .cancelled))) = c ∧
      w.2.1 = b' ∧ w.2.2 = pr' := by simpa only [Prod.mk.injEq] using hbuild
  rcases hout with ⟨hres, hnone, hpr⟩ | ⟨t, ht, hres, hpr, happ, himage⟩ | hfail
  · exact .inl ⟨by rw [if_pos hres], hnone, hpr⟩
  · have happTail := happ.tail_eq
    have hfirst' := happ.first_eq
    refine .inr (.inl ⟨t, ht, ?_, hpr, h.root_ok, ?_, hfirst'.trans hfirst, by omega, happ.sized,
      ?_, valid_walkTree hsane ht⟩)
    · rw [hres]
      by_cases hnil : t = .nil <;> simp [hnil]
    · refine h.root_at.congr fun i hi => happ.before _ ?_
      rw [List.length_append, List.length_singleton] at hi
      omega
    · rw [hfirst', ← htail]
      exact himage
  · exact .inr (.inr hfail)

/-! ## More fuel -/

/-- A walk that is given more fuel goes on where it was stopped. -/
def Extends (w w' : Walk) : Prop :=
  (w.1 ≠ .unfinished → w' = w) ∧ (w.2.2.failed = true → w'.2.2.failed = true)

theorem Extends.refl (w : Walk) : Extends w w := ⟨fun _ => rfl, id⟩

theorem walkSiblings_mono {walk walk' : Bytes → FsBuf → ℕ → ProgressReport → Walk}
    (hfailed : ∀ p b off pr, pr.failed = true → (walk' p b off pr).2.2.failed = true)
    (hwalk : ∀ p b off pr, Extends (walk p b off pr) (walk' p b off pr)) (name : Bytes)
    (stop fuel off : ℕ) (b : FsBuf) (pr : ProgressReport) :
    Extends (walkSiblings walk name stop fuel b off pr) (walkSiblings walk' name stop fuel b off pr) := by
  induction fuel generalizing b off pr with
  | zero => exact Extends.refl _
  | succ fuel ih =>
    by_cases hlt : off < stop
    · by_cases hfile : b.doIsFile off
      · rw [walkSiblings, walkSiblings, if_pos hlt, if_pos hfile, if_pos hlt, if_pos hfile]
        exact ih _ _ _
      · have hext := hwalk (walkPath name ((b.doSetKidsOff off b.tail).strAt off))
          (b.doSetKidsOff off b.tail) off pr
        rw [walkSiblings_dir fuel pr hlt (by simpa using hfile) rfl,
          walkSiblings_dir fuel pr hlt (by simpa using hfile) rfl]
        generalize walk (walkPath name ((b.doSetKidsOff off b.tail).strAt off))
          (b.doSetKidsOff off b.tail) off pr = w at hext ⊢
        generalize walk' (walkPath name ((b.doSetKidsOff off b.tail).strAt off))
          (b.doSetKidsOff off b.tail) off pr = w' at hext ⊢
        by_cases hun : w.1 = .unfinished
        · rw [if_pos (.inr hun)]
          refine ⟨fun h => absurd hun h, fun h => ?_⟩
          split
          · exact hext.2 h
          · exact walkSiblings_failed hfailed _ _ _ _ _ _ (hext.2 h)
        · rw [hext.1 hun]
          split
          · exact Extends.refl _
          · exact ih _ _ _
    · rw [walkSiblings, walkSiblings, if_neg hlt, if_neg hlt]
      exact Extends.refl _

theorem walkdir_mono (hpcf : ∀ f d n e, env.pcf f d n e = false) {fuel fuel' : ℕ}
    (hle : fuel ≤ fuel') (name : Bytes) (b : FsBuf) (parentOff : ℕ) (pr : ProgressReport) :
    Extends (env.walkdir fuel name b parentOff pr) (env.walkdir fuel' name b parentOff pr) := by
  induction fuel generalizing fuel' name b parentOff pr with
  | zero => exact ⟨fun h => absurd rfl h, fun h => walkdir_failed hpcf _ _ _ _ _ h⟩
  | succ fuel ih =>
    obtain ⟨fuel', rfl⟩ : ∃ k, fuel' = k + 1 := ⟨fuel' - 1, by omega⟩
    rw [walkdir, walkdir]
    split
    · exact Extends.refl _
    split
    · exact Extends.refl _
    split
    · exact Extends.refl _
    · simp only
      split
      · exact Extends.refl _
      split
      · exact Extends.refl _
      · exact walkSiblings_mono (walkdir_failed hpcf fuel') (fun p b off pr => ih (by omega) p b off pr)
          _ _ _ _ _ _

/-- A failure within some fuel is a failure within more. -/
theorem buildFstree_failed_mono (hpcf : ∀ f d n e, env.pcf f d n e = false) {fuel fuel' : ℕ}
    (hle : fuel ≤ fuel') {b : FsBuf} (h : (env.buildFstree fuel b).2.2.failed = true) :
    (env.buildFstree fuel' b).2.2.failed = true :=
  (walkdir_mono hpcf hle _ _ _ _).2 h

theorem fillKids_mono {f g : Bytes → Option Tree} (hfg : ∀ n k, f n = some k → g n = some k)
    {r t : Tree} (h : fillKids f r = some t) : fillKids g r = some t := by
  induction r generalizing t with
  | nil => exact h
  | leaf n r ih =>
    obtain ⟨s, hs, rfl⟩ := fillKids_leaf_eq_some.mp h
    exact fillKids_leaf_eq_some.mpr ⟨s, ih hs, rfl⟩
  | node n k r _ ih =>
    obtain ⟨k', s, hk, hs, rfl⟩ := fillKids_node_eq_some.mp h
    exact fillKids_node_eq_some.mpr ⟨k', s, hfg n k' hk, ih hs, rfl⟩

theorem walkTree_mono {child : Bytes → Bytes → Bytes} {fuel fuel' : ℕ} (hle : fuel ≤ fuel')
    {p : Bytes} {t : Tree} (h : env.walkTree child fuel p = some t) :
    env.walkTree child fuel' p = some t := by
  induction fuel generalizing fuel' p t with
  | zero => simp [walkTree] at h
  | succ fuel ih =>
    obtain ⟨fuel', rfl⟩ : ∃ k, fuel' = k + 1 := ⟨fuel' - 1, by omega⟩
    exact fillKids_mono (fun n k hk => ih (by omega) hk) h

/-- Nothing fails when the buffer has room for the image. -/
theorem buildFstree_of_room (hsane : env.Sane) (hpcf : ∀ f d n e, env.pcf f d n e = false) {b : FsBuf}
    {root : Bytes} (h : Represents b root .nil) {depth : ℕ} {t : Tree}
    (htree : env.walkTree walkPath depth root = some t) (hroom : b.tail + treeSize t < b.capacity)
    (fuel : ℕ) : (env.buildFstree fuel b).2.2.failed = false := by
  by_contra hfailed
  have hmono := buildFstree_failed_mono hpcf (le_max_left fuel depth) (by simpa using hfailed)
  have hmax := walkTree_mono (le_max_right fuel depth) htree
  rcases buildFstree_spec hsane hpcf h (max fuel depth) rfl with
    ⟨-, -, hok⟩ | ⟨-, -, -, hok, -⟩ | ⟨-, hcap⟩
  · exact absurd (hok.symm.trans hmono) (by simp)
  · exact absurd (hok.symm.trans hmono) (by simp)
  · exact absurd (hcap t hmax) (by omega)

/-! ## Cancelling -/

/-- The same environment with a callback that never cancels. -/
def patient (env : WalkEnv) : WalkEnv := { env with pcf := fun _ _ _ _ => false }

theorem readEntries_patient {name : Bytes} {des : List Dirent} {b b' : FsBuf}
    {pr pr' : ProgressReport} (h : env.readEntries name des b pr = (false, b', pr')) :
    env.patient.readEntries name des b pr = (false, b', pr') := by
  induction des generalizing b pr with
  | nil => exact h
  | cons de des ih =>
    by_cases hskip : de.isSkipped
    · rw [readEntries, if_pos hskip] at h ⊢
      exact ih h
    rw [readEntries, if_neg hskip] at h ⊢
    generalize decide (de.type = .dir) = isDir at h ⊢
    cases isDir with
    | true =>
      simp only [if_true] at h ⊢
      split at h
      · simp at h
      · rw [if_neg (by simp [patient])]
        exact ih h
    | false =>
      simp only [Bool.false_eq_true, if_false] at h ⊢
      split at h
      · simp at h
      · rw [if_neg (by simp [patient])]
        exact ih h

theorem walkSiblings_patient {walk walk' : Bytes → FsBuf → ℕ → ProgressReport → Walk}
    (hwalk : ∀ p b off pr, (walk p b off pr).1 ≠ .cancelled → walk' p b off pr = walk p b off pr)
    {name : Bytes} {stop fuel off : ℕ} {b : FsBuf} {pr : ProgressReport}
    (h : (walkSiblings walk name stop fuel b off pr).1 ≠ .cancelled) :
    walkSiblings walk' name stop fuel b off pr = walkSiblings walk name stop fuel b off pr := by
  induction fuel generalizing b off pr with
  | zero => rfl
  | succ fuel ih =>
    by_cases hlt : off < stop
    · by_cases hfile : b.doIsFile off
      · rw [walkSiblings, if_pos hlt, if_pos hfile] at h
        rw [walkSiblings, walkSiblings, if_pos hlt, if_pos hfile, if_pos hlt, if_pos hfile]
        exact ih h
      · have hsame := hwalk (walkPath name ((b.doSetKidsOff off b.tail).strAt off))
          (b.doSetKidsOff off b.tail) off pr
        rw [walkSiblings_dir fuel pr hlt (by simpa using hfile) rfl] at h
        rw [walkSiblings_dir fuel pr hlt (by simpa using hfile) rfl,
          walkSiblings_dir fuel pr hlt (by simpa using hfile) rfl]
        generalize walk (walkPath name ((b.doSetKidsOff off b.tail).strAt off))
          (b.doSetKidsOff off b.tail) off pr = w at h hsame ⊢
        have hw : w.1 ≠ .cancelled := by
          intro hw
          rw [if_pos (.inl hw)] at h
          exact h hw
        rw [hsame hw]
        by_cases hstop : w.1 = .cancelled ∨ w.1 = .unfinished
        · rw [if_pos hstop, if_pos hstop]
        · rw [if_neg hstop] at h
          rw [if_neg hstop, if_neg hstop]
          exact ih h
    · rw [walkSiblings, walkSiblings, if_neg hlt, if_neg hlt]

theorem walkdir_patient {fuel : ℕ} {name : Bytes} {b : FsBuf} {parentOff : ℕ} {pr : ProgressReport}
    (h : (env.walkdir fuel name b parentOff pr).1 ≠ .cancelled) :
    env.patient.walkdir fuel name b parentOff pr = env.walkdir fuel name b parentOff pr := by
  induction fuel generalizing name b parentOff pr with
  | zero => rfl
  | succ fuel ih =>
    rw [walkdir] at h
    rw [walkdir, walkdir]
    by_cases hskip : env.shouldSkipPath name = true
    · rw [if_pos hskip, if_pos (show env.patient.shouldSkipPath name = true from hskip)]
    rw [if_neg hskip] at h ⊢
    rw [if_neg (show ¬ env.patient.shouldSkipPath name = true from hskip)]
    by_cases hpcf : env.pcf pr.fileCount pr.dirCount name none = true
    · rw [if_pos hpcf] at h
      exact absurd rfl h
    rw [if_neg hpcf] at h ⊢
    rw [if_neg (show ¬ env.patient.pcf pr.fileCount pr.dirCount name none = true by simp [patient]),
      show env.patient.opendir name = env.opendir name from rfl]
    cases hopen : env.opendir name with
    | none => rfl
    | some des =>
      rw [hopen] at h
      simp only at h ⊢
      generalize hread : env.readEntries name des b pr = r at h ⊢
      obtain ⟨cancelled, b', pr'⟩ := r
      cases cancelled with
      | true => simp at h
      | false =>
        rw [readEntries_patient hread]
        simp only [Bool.false_eq_true, if_false] at h ⊢
        by_cases hempty : b.tail = b'.tail
        · rw [if_pos hempty, if_pos hempty]
        · rw [if_neg hempty] at h
          rw [if_neg hempty, if_neg hempty]
          exact walkSiblings_patient (fun p b off pr hw => ih hw) h

/-- A build that was not cancelled is the one that nothing can cancel. -/
theorem buildFstree_patient {fuel : ℕ} {b b' : FsBuf} {pr' : ProgressReport}
    (h : env.buildFstree fuel b = (some false, b', pr')) :
    env.patient.buildFstree fuel b = (some false, b', pr') := by
  rw [buildFstree] at h ⊢
  have hnot : (env.walkdir fuel b.getRootPath b 0 ⟨0, 0, false⟩).1 ≠ .cancelled := by
    intro hw
    simp [hw] at h
  rw [walkdir_patient hnot]
  exact h

end WalkEnv

end DeepinAnything
