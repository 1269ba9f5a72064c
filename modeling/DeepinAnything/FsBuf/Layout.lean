import DeepinAnything.Lib.Forest
import DeepinAnything.FsBuf.Basic

/-!
# The layout of a tree in the buffer

A directory tree is a forest named by byte strings. Its image is a run for every listing that is
not empty, the runs in depth-first pre-order: the run of a listing is followed by the images of
its directories' listings, one after the other. `TreeAt` says that the image of a tree stands at
an offset, `Represents` that a buffer holds a tree.

All offsets in an image are relative, so the image of a sequence of siblings depends on where it
stands only through one number `d`: how many bytes there are, beside the siblings' own, between
the end of their entries and the start of the runs below them (less the five bytes of the parent
tag). An edit elsewhere changes `d` and nothing else, and repairing offsets is changing `d`.
-/

namespace DeepinAnything

open ByteMem OrderedForest OrderedForest.Forest

/-- A directory listing with everything below it. -/
abbrev Tree := Forest Bytes

/-- What a file can be called: not empty, no terminator and no slash inside. -/
def NameOk (n : Bytes) : Prop := n ≠ [] ∧ (0 : UInt8) ∉ n ∧ slash ∉ n

instance : DecidablePred NameOk := fun _ => inferInstanceAs (Decidable (_ ∧ _ ∧ _))

/-! ## Sizes -/

/-- The bytes of the siblings' entries, without what is below them. -/
def entriesSize : Tree → ℕ
  | .nil => 0
  | .leaf n r => n.length + 2 + entriesSize r
  | .node n _ r => n.length + 5 + entriesSize r

/-- The bytes of a run: the entries and the parent tag. -/
def runSize (t : Tree) : ℕ := if t = .nil then 0 else entriesSize t + 5

/-- The bytes of everything below the siblings. -/
def belowSize : Tree → ℕ
  | .nil => 0
  | .leaf _ r => belowSize r
  | .node _ k r => runSize k + belowSize k + belowSize r

/-- The bytes of the image of a tree. -/
def treeSize (t : Tree) : ℕ := runSize t + belowSize t

@[simp] theorem entriesSize_nil : entriesSize .nil = 0 := rfl

@[simp] theorem entriesSize_leaf (n : Bytes) (r : Tree) :
    entriesSize (.leaf n r) = n.length + 2 + entriesSize r := rfl

@[simp] theorem entriesSize_node (n : Bytes) (k r : Tree) :
    entriesSize (.node n k r) = n.length + 5 + entriesSize r := rfl

@[simp] theorem belowSize_nil : belowSize .nil = 0 := rfl

@[simp] theorem belowSize_leaf (n : Bytes) (r : Tree) : belowSize (.leaf n r) = belowSize r := rfl

@[simp] theorem belowSize_node (n : Bytes) (k r : Tree) :
    belowSize (.node n k r) = treeSize k + belowSize r := rfl

@[simp] theorem runSize_nil : runSize .nil = 0 := rfl

theorem runSize_of_ne_nil {t : Tree} (h : t ≠ .nil) : runSize t = entriesSize t + 5 := if_neg h

@[simp] theorem treeSize_nil : treeSize .nil = 0 := rfl

theorem treeSize_of_ne_nil {t : Tree} (h : t ≠ .nil) :
    treeSize t = entriesSize t + 5 + belowSize t := by
  rw [treeSize, runSize_of_ne_nil h]

theorem treeSize_eq_zero_iff {t : Tree} : treeSize t = 0 ↔ t = .nil := by
  constructor
  · intro h
    by_contra hne
    rw [treeSize_of_ne_nil hne] at h
    omega
  · rintro rfl; rfl

theorem entriesSize_eq_zero_iff {t : Tree} : entriesSize t = 0 ↔ t = .nil := by
  cases t <;> simp

@[simp] theorem entriesSize_append (x y : Tree) :
    entriesSize (x ++ y) = entriesSize x + entriesSize y := by
  induction x with
  | nil => simp
  | leaf n x ih => simp [ih, Nat.add_assoc]
  | node n k x _ ih => simp [ih, Nat.add_assoc]

@[simp] theorem belowSize_append (x y : Tree) :
    belowSize (x ++ y) = belowSize x + belowSize y := by
  induction x with
  | nil => simp
  | leaf n x ih => simp [ih]
  | node n k x _ ih => simp [ih, Nat.add_assoc]

theorem length_names_le (t : Tree) : t.names.length ≤ entriesSize t := by
  induction t with
  | nil => simp
  | leaf n r ih => simp; omega
  | node n k r _ ih => simp; omega

/-! ## Images -/

section

variable (m : Mem)

/-- A file's entry. -/
def FileAt (off : ℕ) (n : Bytes) : Prop := m.Holds off (n ++ [0, fsTagFile])

/-- A directory's entry, `rel` being the distance from the tag to its first kid, 0 without kids. -/
def DirAt (off : ℕ) (n : Bytes) (rel : ℕ) : Prop := m.Holds off (n ++ 0 :: le32 (4 * rel + fsTagDir))

/-- A parent tag, `rel` being the distance back from the tag to the directory, 0 for the root. -/
def UpAt (off rel : ℕ) : Prop := m.Holds off (0 :: le32 (4 * rel + fsTagDir))

/-- The entries of siblings. -/
def EntriesAt : ℕ → ℕ → Tree → Prop
  | _, _, .nil => True
  | off, d, .leaf n r => FileAt m off n ∧ EntriesAt (off + n.length + 2) d r
  | off, d, .node n k r =>
    DirAt m off n (if k = .nil then 0 else 9 + entriesSize r + d) ∧
      EntriesAt (off + n.length + 5) (d + treeSize k) r

instance decidableEntriesAt : (off d : ℕ) → (t : Tree) → Decidable (EntriesAt m off d t)
  | _, _, .nil => inferInstanceAs (Decidable True)
  | off, d, .leaf n r =>
    have := decidableEntriesAt (off + n.length + 2) d r
    inferInstanceAs (Decidable (m.Holds off (n ++ [0, fsTagFile]) ∧ EntriesAt m (off + n.length + 2) d r))
  | off, d, .node n k r =>
    have := decidableEntriesAt (off + n.length + 5) (d + treeSize k) r
    inferInstanceAs (Decidable (m.Holds off
      (n ++ 0 :: le32 (4 * (if k = .nil then 0 else 9 + entriesSize r + d) + fsTagDir)) ∧
        EntriesAt m (off + n.length + 5) (d + treeSize k) r))

/-- A run: its entries, closed by a parent tag with `up`. -/
def RunAt (off up : ℕ) (t : Tree) : Prop :=
  t ≠ .nil → EntriesAt m off 0 t ∧ UpAt m (off + entriesSize t) up

/-- The images of the listings below siblings. -/
def BelowAt : ℕ → ℕ → Tree → Prop
  | _, _, .nil => True
  | off, d, .leaf _ r => BelowAt off d r
  | off, d, .node n k r =>
    RunAt m off (n.length + 11 + entriesSize r + d + entriesSize k) k ∧
      BelowAt (off + runSize k) 0 k ∧ BelowAt (off + treeSize k) (d + treeSize k) r

/-- The image of a tree whose first run closes with `up`. -/
def TreeAt (off up : ℕ) (t : Tree) : Prop := RunAt m off up t ∧ BelowAt m (off + runSize t) 0 t

end

variable {m m' : Mem}

theorem entriesAt_append (off d : ℕ) (x y : Tree) :
    EntriesAt m off d (x ++ y) ↔
      EntriesAt m off (d + entriesSize y) x ∧
        EntriesAt m (off + entriesSize x) (d + belowSize x) y := by
  induction x generalizing off d with
  | nil => simp [EntriesAt]
  | leaf n x ih =>
    have ho : off + n.length + 2 + entriesSize x = off + (n.length + 2 + entriesSize x) := by omega
    simp only [leaf_append, EntriesAt, ih, entriesSize_leaf, belowSize_leaf, ho, and_assoc]
  | node n k x _ ih =>
    have ho : off + n.length + 5 + entriesSize x = off + (n.length + 5 + entriesSize x) := by omega
    have hr : 9 + (entriesSize x + entriesSize y) + d = 9 + entriesSize x + (d + entriesSize y) := by
      omega
    have hd : d + treeSize k + entriesSize y = d + entriesSize y + treeSize k := by omega
    have hb : d + treeSize k + belowSize x = d + (treeSize k + belowSize x) := by omega
    simp only [node_append, EntriesAt, ih, entriesSize_node, belowSize_node, entriesSize_append,
      ho, hr, hd, hb, and_assoc]

theorem belowAt_append (off d : ℕ) (x y : Tree) :
    BelowAt m off d (x ++ y) ↔
      BelowAt m off (d + entriesSize y) x ∧ BelowAt m (off + belowSize x) (d + belowSize x) y := by
  induction x generalizing off d with
  | nil => simp [BelowAt]
  | leaf n x ih => simp only [leaf_append, BelowAt, ih, belowSize_leaf]
  | node n k x _ ih =>
    have hu : n.length + 11 + (entriesSize x + entriesSize y) + d + entriesSize k =
        n.length + 11 + entriesSize x + (d + entriesSize y) + entriesSize k := by omega
    have hd : d + treeSize k + entriesSize y = d + entriesSize y + treeSize k := by omega
    have hb : d + treeSize k + belowSize x = d + (treeSize k + belowSize x) := by omega
    have ho : off + treeSize k + belowSize x = off + (treeSize k + belowSize x) := by omega
    simp only [node_append, BelowAt, ih, belowSize_node, entriesSize_append, hu, hd, hb, ho, and_assoc]

/-! ## The bytes of an image -/

/-- The bytes of the entries of siblings. -/
def entriesBytes : ℕ → Tree → Bytes
  | _, .nil => []
  | d, .leaf n r => n ++ [0, fsTagFile] ++ entriesBytes d r
  | d, .node n k r =>
    n ++ 0 :: le32 (4 * (if k = .nil then 0 else 9 + entriesSize r + d) + fsTagDir) ++
      entriesBytes (d + treeSize k) r

/-- The bytes of a run. -/
def runBytes (up : ℕ) (t : Tree) : Bytes :=
  if t = .nil then [] else entriesBytes 0 t ++ 0 :: le32 (4 * up + fsTagDir)

/-- The bytes of the images of the listings below siblings. -/
def belowBytes : ℕ → Tree → Bytes
  | _, .nil => []
  | d, .leaf _ r => belowBytes d r
  | d, .node n k r =>
    runBytes (n.length + 11 + entriesSize r + d + entriesSize k) k ++ belowBytes 0 k ++
      belowBytes (d + treeSize k) r

/-- The bytes of the image of a tree. -/
def treeBytes (up : ℕ) (t : Tree) : Bytes := runBytes up t ++ belowBytes 0 t

@[simp] theorem length_entriesBytes (d : ℕ) (t : Tree) : (entriesBytes d t).length = entriesSize t := by
  induction t generalizing d with
  | nil => rfl
  | leaf n r ih => simp [entriesBytes, ih]; omega
  | node n k r _ ih => simp [entriesBytes, ih]; omega

@[simp] theorem length_runBytes (up : ℕ) (t : Tree) : (runBytes up t).length = runSize t := by
  by_cases h : t = .nil
  · simp [runBytes, h]
  · simp [runBytes, h, runSize_of_ne_nil h]

@[simp] theorem length_belowBytes (d : ℕ) (t : Tree) : (belowBytes d t).length = belowSize t := by
  induction t generalizing d with
  | nil => rfl
  | leaf n r ih => simp [belowBytes, ih]
  | node n k r ihk ih => simp [belowBytes, ih, ihk, treeSize, Nat.add_assoc]

@[simp] theorem length_treeBytes (up : ℕ) (t : Tree) : (treeBytes up t).length = treeSize t := by
  simp [treeBytes, treeSize]

theorem entriesAt_of_holds {off d : ℕ} {t : Tree} (h : m.Holds off (entriesBytes d t)) :
    EntriesAt m off d t := by
  induction t generalizing off d with
  | nil => trivial
  | leaf n r ih =>
    obtain ⟨hn, hr⟩ := (Mem.holds_append _ _ _).mp h
    exact ⟨hn, ih (by simpa [Nat.add_assoc] using hr)⟩
  | node n k r _ ih =>
    obtain ⟨hn, hr⟩ := (Mem.holds_append _ _ _).mp h
    exact ⟨hn, ih (by simpa [Nat.add_assoc] using hr)⟩

theorem runAt_of_holds {off up : ℕ} {t : Tree} (h : m.Holds off (runBytes up t)) :
    RunAt m off up t := by
  intro hne
  rw [runBytes, if_neg hne, Mem.holds_append, length_entriesBytes] at h
  exact ⟨entriesAt_of_holds h.1, h.2⟩

theorem belowAt_of_holds {off d : ℕ} {t : Tree} (h : m.Holds off (belowBytes d t)) :
    BelowAt m off d t := by
  induction t generalizing off d with
  | nil => trivial
  | leaf n r ih => exact ih h
  | node n k r ihk ih =>
    simp only [belowBytes, Mem.holds_append, List.length_append, length_runBytes,
      length_belowBytes] at h
    exact ⟨runAt_of_holds h.1.1, ihk h.1.2, ih h.2⟩

/-- Every tree has an image. -/
theorem treeAt_of_holds {off up : ℕ} {t : Tree} (h : m.Holds off (treeBytes up t)) :
    TreeAt m off up t := by
  rw [treeBytes, Mem.holds_append, length_runBytes] at h
  exact ⟨runAt_of_holds h.1, belowAt_of_holds h.2⟩

theorem EntriesAt.holds {off d : ℕ} {t : Tree} (h : EntriesAt m off d t) : m.Holds off (entriesBytes d t) := by
  induction t generalizing off d with
  | nil => trivial
  | leaf n r ih =>
    refine (Mem.holds_append _ _ _).mpr ⟨h.1, ?_⟩
    simpa [Nat.add_assoc] using ih h.2
  | node n k r _ ih =>
    refine (Mem.holds_append _ _ _).mpr ⟨h.1, ?_⟩
    simpa [Nat.add_assoc] using ih h.2

theorem RunAt.holds {off up : ℕ} {t : Tree} (h : RunAt m off up t) : m.Holds off (runBytes up t) := by
  rw [runBytes]
  split
  · trivial
  · rw [Mem.holds_append, length_entriesBytes]
    exact ⟨(h ‹_›).1.holds, (h ‹_›).2⟩

theorem BelowAt.holds {off d : ℕ} {t : Tree} (h : BelowAt m off d t) : m.Holds off (belowBytes d t) := by
  induction t generalizing off d with
  | nil => trivial
  | leaf n r ih => exact ih h
  | node n k r ihk ih =>
    obtain ⟨hrun, hkids, hrest⟩ := h
    simp only [belowBytes, Mem.holds_append, List.length_append, length_runBytes, length_belowBytes]
    exact ⟨⟨hrun.holds, ihk hkids⟩, ih hrest⟩

/-- The image of a tree is unique but for the last tag of its first run. -/
theorem TreeAt.holds {off up : ℕ} {t : Tree} (h : TreeAt m off up t) : m.Holds off (treeBytes up t) := by
  rw [treeBytes, Mem.holds_append, length_runBytes]
  exact ⟨h.1.holds, h.2.holds⟩

/-! ## An image is where its bytes are -/

/-- The `n` bytes at `off` in `m` are the `n` bytes at `off'` in `m'`. -/
def SameBytes (m m' : Mem) (off off' n : ℕ) : Prop := ∀ i < n, m'.get (off' + i) = m.get (off + i)

theorem SameBytes.sub {off off' n : ℕ} (h : SameBytes m m' off off' n) {k l : ℕ} (hk : k + l ≤ n) :
    SameBytes m m' (off + k) (off' + k) l := by
  intro i hi
  have := h (k + i) (by omega)
  simpa only [Nat.add_assoc] using this

theorem SameBytes.mono {off off' n l : ℕ} (h : SameBytes m m' off off' n) (hl : l ≤ n) :
    SameBytes m m' off off' l := fun i hi => h i (by omega)

theorem FileAt.congr {off off' : ℕ} {n : Bytes} (h : FileAt m off n)
    (hs : SameBytes m m' off off' (n.length + 2)) : FileAt m' off' n :=
  Mem.Holds.congr h (by simpa [SameBytes] using hs)

theorem DirAt.congr {off off' rel : ℕ} {n : Bytes} (h : DirAt m off n rel)
    (hs : SameBytes m m' off off' (n.length + 5)) : DirAt m' off' n rel :=
  Mem.Holds.congr h (by simpa [SameBytes] using hs)

theorem UpAt.congr {off off' rel : ℕ} (h : UpAt m off rel) (hs : SameBytes m m' off off' 5) :
    UpAt m' off' rel :=
  Mem.Holds.congr h (by simpa [SameBytes] using hs)

theorem EntriesAt.congr {off off' d : ℕ} {t : Tree} (h : EntriesAt m off d t)
    (hs : SameBytes m m' off off' (entriesSize t)) : EntriesAt m' off' d t := by
  induction t generalizing off off' d with
  | nil => trivial
  | leaf n r ih =>
    rw [entriesSize_leaf] at hs
    refine ⟨h.1.congr (hs.mono (by omega)), ih h.2 ?_⟩
    simpa only [Nat.add_assoc] using hs.sub (k := n.length + 2) (l := entriesSize r) (by omega)
  | node n k r _ ih =>
    rw [entriesSize_node] at hs
    refine ⟨h.1.congr (hs.mono (by omega)), ih h.2 ?_⟩
    simpa only [Nat.add_assoc] using hs.sub (k := n.length + 5) (l := entriesSize r) (by omega)

theorem RunAt.congr {off off' up : ℕ} {t : Tree} (h : RunAt m off up t)
    (hs : SameBytes m m' off off' (runSize t)) : RunAt m' off' up t := by
  intro hne
  rw [runSize_of_ne_nil hne] at hs
  exact ⟨(h hne).1.congr (hs.mono (by omega)), (h hne).2.congr (hs.sub (by omega))⟩

theorem BelowAt.congr {off off' d : ℕ} {t : Tree} (h : BelowAt m off d t)
    (hs : SameBytes m m' off off' (belowSize t)) : BelowAt m' off' d t := by
  induction t generalizing off off' d with
  | nil => trivial
  | leaf n r ih => exact ih h hs
  | node n k r ihk ih =>
    rw [belowSize_node, treeSize] at hs
    refine ⟨h.1.congr (hs.mono (by omega)), ihk h.2.1 (hs.sub (by omega)), ih h.2.2 ?_⟩
    exact hs.sub (by rw [treeSize])

theorem TreeAt.congr {off off' up : ℕ} {t : Tree} (h : TreeAt m off up t)
    (hs : SameBytes m m' off off' (treeSize t)) : TreeAt m' off' up t :=
  ⟨h.1.congr (hs.mono (by rw [treeSize]; omega)), h.2.congr (hs.sub (by rw [treeSize]))⟩

/-! ## Contexts -/

/-- The bytes of the entries of the listing a frame is a step up to. -/
def frameSize (f : Frame Bytes) : ℕ := entriesSize f.left + (f.name.length + 5) + entriesSize f.right

theorem frameSize_eq (f : Frame Bytes) :
    frameSize f = entriesSize f.left + (f.name.length + 5) + entriesSize f.right := rfl

/-- Where the listing in a context has its run, when the outermost run is at `base`. -/
def runPos (base : ℕ) : List (Frame Bytes) → ℕ
  | [] => base
  | f :: c => runPos base c + frameSize f + 5 + belowSize f.left

/-- Where the directory stands that owns the innermost listing of the context `f :: c`. -/
def ownerPos (base : ℕ) (f : Frame Bytes) (c : List (Frame Bytes)) : ℕ :=
  runPos base c + entriesSize f.left

/-- The parent tag of the listing in a context, if its entries take `e` bytes. -/
def upRel (base e : ℕ) : List (Frame Bytes) → ℕ
  | [] => 0
  | f :: c => runPos base (f :: c) + e + 1 - ownerPos base f c

/-- The size of the image of the listing one frame up, when the listing in it takes `s` bytes. -/
def wrapSize (f : Frame Bytes) (s : ℕ) : ℕ :=
  frameSize f + 5 + belowSize f.left + s + belowSize f.right

theorem wrapSize_eq (f : Frame Bytes) (s : ℕ) :
    wrapSize f s = frameSize f + 5 + belowSize f.left + s + belowSize f.right := rfl

/-- The image of one frame around a listing. `s` is the size of the listing's own image, `s'` the
size that the offsets spanning it were computed with, and `z` tells whether the directory that
owns it has a kids offset. -/
@[mk_iff]
structure LevelAt (m : Mem) (base : ℕ) (f : Frame Bytes) (c : List (Frame Bytes)) (z : Bool)
    (s s' : ℕ) : Prop where
  left : EntriesAt m (runPos base c) (f.name.length + 5 + entriesSize f.right) f.left
  owner : DirAt m (ownerPos base f c) f.name
    (if z then 9 + entriesSize f.right + belowSize f.left else 0)
  right : EntriesAt m (ownerPos base f c + f.name.length + 5) (belowSize f.left + s') f.right
  up : UpAt m (runPos base c + frameSize f) (upRel base (frameSize f) c)
  belowLeft : BelowAt m (runPos base c + frameSize f + 5) (f.name.length + 5 + entriesSize f.right)
    f.left
  belowRight : BelowAt m (runPos base (f :: c) + s) (belowSize f.left + s') f.right

/-- The image of everything around a listing. -/
def ContextAt (m : Mem) (base : ℕ) : List (Frame Bytes) → Bool → ℕ → ℕ → Prop
  | [], _, _, _ => True
  | f :: c, z, s, s' =>
    LevelAt m base f c z s s' ∧ ContextAt m base c true (wrapSize f s) (wrapSize f s')

theorem base_le_runPos (base : ℕ) (c : List (Frame Bytes)) : base ≤ runPos base c := by
  induction c with
  | nil => exact le_rfl
  | cons f c ih => rw [runPos]; omega

/-- The size of the whole image when the listing in the context takes `s` bytes. -/
def plugSize : List (Frame Bytes) → ℕ → ℕ
  | [], s => s
  | f :: c, s => plugSize c (wrapSize f s)

theorem plugSize_add (c : List (Frame Bytes)) (s x : ℕ) : plugSize c (s + x) = plugSize c s + x := by
  induction c generalizing s with
  | nil => rfl
  | cons f c ih =>
    have : wrapSize f (s + x) = wrapSize f s + x := by simp only [wrapSize_eq]; omega
    rw [plugSize, this, ih, plugSize]

theorem plugSize_eq (c : List (Frame Bytes)) (s : ℕ) : plugSize c s = plugSize c 0 + s := by
  simpa using plugSize_add c 0 s

theorem entriesSize_wrap (f : Frame Bytes) (t : Tree) :
    entriesSize (f.left ++ node f.name t f.right) = frameSize f := by
  simp [frameSize]; omega

theorem treeSize_wrap (f : Frame Bytes) (t : Tree) :
    treeSize (f.left ++ node f.name t f.right) = wrapSize f (treeSize t) := by
  have hne : f.left ++ node f.name t f.right ≠ .nil :=
    append_cons_ne_nil f.left f.right f.name (.node t)
  rw [treeSize_of_ne_nil hne, entriesSize_wrap]
  simp [wrapSize]; omega

theorem treeSize_plug (c : List (Frame Bytes)) (t : Tree) :
    treeSize (plug c t) = plugSize c (treeSize t) := by
  induction c generalizing t with
  | nil => rfl
  | cons f c ih => rw [plug_cons, ih, treeSize_wrap, plugSize]

theorem runPos_add_le (base : ℕ) (c : List (Frame Bytes)) (s : ℕ) :
    runPos base c + s ≤ base + plugSize c s := by
  induction c generalizing s with
  | nil => exact le_rfl
  | cons f c ih =>
    refine le_trans ?_ (ih (wrapSize f s))
    rw [runPos, wrapSize]
    omega

theorem runPos_cons (base : ℕ) (f : Frame Bytes) (c : List (Frame Bytes)) :
    runPos base (f :: c) = runPos base c + frameSize f + 5 + belowSize f.left := rfl

theorem runPos_add_wrapSize (base : ℕ) (f : Frame Bytes) (c : List (Frame Bytes)) (s : ℕ) :
    runPos base c + wrapSize f s = runPos base (f :: c) + s + belowSize f.right := by
  rw [runPos_cons, wrapSize]; omega

theorem LevelAt.congr {base s s' s₁ : ℕ} {f : Frame Bytes} {c : List (Frame Bytes)} {z : Bool}
    (h : LevelAt m base f c z s s')
    (hbefore : SameBytes m m' (runPos base c) (runPos base c) (frameSize f + 5 + belowSize f.left))
    (hafter : SameBytes m m' (runPos base (f :: c) + s) (runPos base (f :: c) + s₁)
      (belowSize f.right)) : LevelAt m' base f c z s₁ s' := by
  have hsize := frameSize_eq f
  have hsame : ∀ {k l : ℕ}, k + l ≤ frameSize f + 5 + belowSize f.left →
      SameBytes m m' (runPos base c + k) (runPos base c + k) l := hbefore.sub
  have hright : ownerPos base f c + f.name.length + 5 =
      runPos base c + (entriesSize f.left + f.name.length + 5) := by rw [ownerPos]; omega
  have hbl : runPos base c + frameSize f + 5 = runPos base c + (frameSize f + 5) := by omega
  refine ⟨h.left.congr (hbefore.mono (by omega)), h.owner.congr (hsame (by omega)), ?_,
    h.up.congr (hsame (by omega)), ?_, h.belowRight.congr hafter⟩
  · have := h.right
    rw [hright] at this ⊢
    exact this.congr (hsame (by omega))
  · have := h.belowLeft
    rw [hbl] at this ⊢
    exact this.congr (hsame (by omega))

/-- A context stays when the bytes behind its listing move along with the listing's end. -/
theorem ContextAt.congr {base s s' s₁ n : ℕ} {c : List (Frame Bytes)} {z : Bool}
    (h : ContextAt m base c z s s')
    (hbefore : SameBytes m m' base base (runPos base c - base))
    (hafter : SameBytes m m' (runPos base c + s) (runPos base c + s₁) n)
    (hn : base + plugSize c s ≤ runPos base c + s + n) : ContextAt m' base c z s₁ s' := by
  induction c generalizing s s' s₁ n z with
  | nil => trivial
  | cons f c ih =>
    have hle := base_le_runPos base c
    have hpos := runPos_cons base f c
    have hout := runPos_add_le base c (wrapSize f s)
    rw [runPos_add_wrapSize] at hout
    rw [plugSize] at hn
    have hrun : runPos base c = base + (runPos base c - base) := by omega
    refine ⟨h.1.congr ?_ (hafter.mono (by omega)), ih h.2 (hbefore.mono (by omega))
      (n := n - belowSize f.right) ?_ ?_⟩
    · rw [hrun]
      exact hbefore.sub (by omega)
    · rw [runPos_add_wrapSize, runPos_add_wrapSize]
      exact hafter.sub (by omega)
    · rw [runPos_add_wrapSize]
      omega

/-- The image of a tree is the image of a listing in it and of the context around that. -/
theorem treeAt_plug (base : ℕ) (c : List (Frame Bytes)) (t : Tree) :
    TreeAt m base 0 (plug c t) ↔
      ContextAt m base c (decide (t ≠ .nil)) (treeSize t) (treeSize t) ∧
        TreeAt m (runPos base c) (upRel base (entriesSize t) c) t := by
  induction c generalizing t with
  | nil => simp [ContextAt, runPos, upRel]
  | cons f c ih =>
    have hne : f.left ++ node f.name t f.right ≠ .nil :=
      append_cons_ne_nil f.left f.right f.name (.node t)
    have hup : f.name.length + (11 + (entriesSize f.right + (belowSize f.left + entriesSize t))) =
        upRel base (entriesSize t) (f :: c) := by
      rw [upRel, runPos, ownerPos, frameSize]
      omega
    rw [plug_cons, ih, treeSize_wrap, entriesSize_wrap, decide_eq_true hne, TreeAt, RunAt,
      runSize_of_ne_nil hne, entriesSize_wrap]
    simp only [entriesAt_append, belowAt_append, EntriesAt, BelowAt, ContextAt, levelAt_iff,
      entriesSize_node,
      Nat.zero_add, hne, ne_eq, not_false_eq_true, true_imp_iff, hup, TreeAt, decide_not,
      Bool.not_eq_true', decide_eq_false_iff_not, ite_not, ownerPos, runPos, Nat.add_assoc]
    tauto

/-- The image of a tree, put together from a run that is not empty and what is around it. -/
theorem treeAt_of_run {base : ℕ} {c : List (Frame Bytes)} {t : Tree} (ht : t ≠ .nil)
    (hctx : ContextAt m base c true (treeSize t) (treeSize t)) (hent : EntriesAt m (runPos base c) 0 t)
    (hup : UpAt m (runPos base c + entriesSize t) (upRel base (entriesSize t) c))
    (hbelow : BelowAt m (runPos base c + entriesSize t + 5) 0 t) : TreeAt m base 0 (plug c t) := by
  rw [treeAt_plug, decide_eq_true ht]
  refine ⟨hctx, fun _ => ⟨hent, hup⟩, ?_⟩
  rwa [runSize_of_ne_nil ht, ← Nat.add_assoc]

/-- The parts of the image around a run that is not empty. -/
theorem TreeAt.run {base : ℕ} {c : List (Frame Bytes)} {t : Tree} (h : TreeAt m base 0 (plug c t))
    (ht : t ≠ .nil) :
    ContextAt m base c true (treeSize t) (treeSize t) ∧ EntriesAt m (runPos base c) 0 t ∧
      UpAt m (runPos base c + entriesSize t) (upRel base (entriesSize t) c) ∧
      BelowAt m (runPos base c + entriesSize t + 5) 0 t := by
  rw [treeAt_plug, decide_eq_true ht] at h
  have hbelow := h.2.2
  rw [runSize_of_ne_nil ht, ← Nat.add_assoc] at hbelow
  exact ⟨h.1, (h.2.1 ht).1, (h.2.1 ht).2, hbelow⟩

end DeepinAnything
