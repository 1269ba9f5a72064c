import DeepinAnything.Server.EventSource

/-!
# Device numbers from the kernel to the server

A device number of the kernel has 12 bits for the major and 20 bits for the minor number. A message
has 16 and 8 bits for them, the map of mount points of the server has one key of 32 bits in which they
overlap, and the kernel module has 256 flags for the devices with the major number 0.
-/

namespace DeepinAnything.Server

open ByteMem EventMerge

/-! ## The kernel module (`vfs_genl.c`, `vfs_sysfs.h`) -/

/-- `MAJOR` and `MINOR` of the kernel. -/
def kernelMajor (dev : ℕ) : ℕ := dev >>> 20

def kernelMinor (dev : ℕ) : ℕ := dev % 2 ^ 20

def maxMinor : ℕ := 255

/-- `IS_INVALID_DEVICE`; there is no result if it reads outside `vfs_unnamed_devices`. -/
def isInvalidDevice (vfsUnnamedDevices : Vector Bool (maxMinor + 1)) (dev : ℕ) : Option Bool :=
  if kernelMajor dev ≠ 0 then some false
  else (vfsUnnamedDevices[kernelMinor dev]?).map fun enabled => !enabled

/-- Where an argument is cut into the bits of a key. -/
theorem mkdev_eq_iff {ma mi ma' mi' : ℕ} : mkdev ma mi = mkdev ma' mi' ↔
    ma ||| mi / 2 ^ 8 = ma' ||| mi' / 2 ^ 8 ∧ mi % 2 ^ 8 = mi' % 2 ^ 8 := by
  have hdiv : ∀ ma mi, mkdev ma mi / 2 ^ 8 = ma ||| mi / 2 ^ 8 := fun ma mi => by
    rw [mkdev, Nat.or_div_two_pow, Nat.shiftLeft_eq, Nat.mul_div_cancel _ (by decide)]
  have hmod : ∀ ma mi, mkdev ma mi % 2 ^ 8 = mi % 2 ^ 8 := fun ma mi => by
    rw [mkdev, Nat.or_mod_two_pow, Nat.shiftLeft_eq, Nat.mul_mod_left, Nat.zero_or]
  constructor
  · intro h
    exact ⟨(hdiv ma mi).symm.trans ((congrArg (· / 2 ^ 8) h).trans (hdiv ma' mi')),
      (hmod ma mi).symm.trans ((congrArg (· % 2 ^ 8) h).trans (hmod ma' mi'))⟩
  · rintro ⟨hquot, hrem⟩
    have hquot' := (hdiv ma mi).trans (hquot.trans (hdiv ma' mi').symm)
    have hrem' := (hmod ma mi).trans (hrem.trans (hmod ma' mi').symm)
    rw [← Nat.div_add_mod (mkdev ma mi) (2 ^ 8), hquot', hrem', Nat.div_add_mod]

namespace MountLine

variable {m : MountLine} {lines : List MountLine} {mp : Bytes}

/-- The line puts the mount point into the map: as `sscanf` reads it, the root is `/`, the mount point is this one, and
a device with the major number 0 is of the type `fuse.dlnfs`. -/
def Accepts (m : MountLine) (mp : Bytes) : Prop :=
  ∃ type, m.scan = some (rootDir, mp, type) ∧ (m.major = 0 → type = fuseDlnfsType)

/-- The line is put into the map. -/
def Accepted (m : MountLine) : Prop := ∃ mp, m.Accepts mp

theorem Accepts.unique {mp' : Bytes} (h : m.Accepts mp) (h' : m.Accepts mp') : mp = mp' := by
  obtain ⟨type, hscan, -⟩ := h
  obtain ⟨type', hscan', -⟩ := h'
  exact (Prod.mk.inj (Prod.mk.inj (Option.some.inj (hscan.symm.trans hscan'))).2).1

theorem wordsOf_intercalate (ws : List Bytes) : wordsOf ([32].intercalate ws) = ws.flatMap wordsOf := by
  induction ws with
  | nil => rfl
  | cons w ws ih =>
    cases ws with
    | nil => simp
    | cons w' ws =>
      rw [List.intercalate_cons_cons, List.flatMap_cons, ← ih, wordsOf, wordsOf, wordsOf, ← List.filter_append,
        List.append_assoc, List.singleton_append, List.splitOnP_append_cons w _ (by decide)]

/-- A part that is not all white space has a word. -/
theorem wordsOf_ne_nil {w : Bytes} (h : ∃ c ∈ w, isspace c = false) : wordsOf w ≠ [] := by
  have hword : ∃ v ∈ w.splitOnP isspace, v ≠ [] := by
    induction w with
    | nil => simp at h
    | cons x w ih =>
      rw [List.splitOnP_cons_eq_if_modifyHead]
      by_cases hx : isspace x = true
      · obtain ⟨c, hc, hspace⟩ := h
        have hrest : c ∈ w := (List.mem_cons.mp hc).resolve_left fun heq => by simp [heq, hx] at hspace
        obtain ⟨v, hv, hne⟩ := ih ⟨c, hrest, hspace⟩
        rw [if_pos hx]
        exact ⟨v, List.mem_cons_of_mem _ hv, hne⟩
      · obtain ⟨v, vs, hsplit⟩ := List.exists_cons_of_ne_nil (List.splitOnP_ne_nil isspace w)
        rw [if_neg hx, hsplit]
        exact ⟨x :: v, List.mem_cons_self, List.cons_ne_nil _ _⟩
  obtain ⟨v, hv, hne⟩ := hword
  exact List.ne_nil_of_mem (List.mem_filter.mpr ⟨hv, by simpa using hne⟩)

theorem wordsOf_text (m : MountLine) : wordsOf m.text = wordsOf m.root ++ (wordsOf m.mountPoint ++
    (wordsOf m.options ++ m.optional.flatMap wordsOf ++
      ([45] :: wordsOf m.type ++ wordsOf m.source ++ wordsOf m.superOptions))) := by
  have hdash : wordsOf [45] = [[45]] := by decide
  rw [text, wordsOf_intercalate, parts]
  simp [hdash]

/-- There are enough words in the line. -/
theorem six_le_length_words (m : MountLine) : 6 ≤ (wordsOf m.text).length := by
  have hlen : ∀ w ∈ [m.root, m.mountPoint, m.options, m.type, m.superOptions], 1 ≤ (wordsOf w).length :=
    fun w hw => List.length_pos_of_ne_nil (wordsOf_ne_nil (m.nonblank w hw))
  have hroot := hlen m.root (by simp)
  have hmp := hlen m.mountPoint (by simp)
  have hoptions := hlen m.options (by simp)
  have htype := hlen m.type (by simp)
  have hsuper := hlen m.superOptions (by simp)
  rw [wordsOf_text]
  simp only [List.length_append, List.length_cons]
  omega

theorem exists_scanWord {k : ℕ} {ws : List Bytes} (h : k + 1 ≤ ws.length) :
    ∃ w rest, scanWord ws = some (w, rest) ∧ k ≤ rest.length := by
  cases ws with
  | nil => simp at h
  | cons w ws =>
    rw [List.length_cons] at h
    rw [scanWord]
    split
    · exact ⟨_, _, rfl, by omega⟩
    · exact ⟨_, _, rfl, by rw [List.length_cons]; omega⟩

theorem exists_skipWord {k : ℕ} {ws : List Bytes} (h : k + 1 ≤ ws.length) :
    ∃ rest, skipWord ws = some rest ∧ k ≤ rest.length := by
  cases ws with
  | nil => simp at h
  | cons w ws => exact ⟨ws, rfl, Nat.le_of_succ_le_succ h⟩

/-- Every line is read. -/
theorem exists_scan (m : MountLine) : ∃ root mp type, m.scan = some (root, mp, type) := by
  obtain ⟨root, ws₁, h₁, hlen₁⟩ := exists_scanWord m.six_le_length_words
  obtain ⟨mp, ws₂, h₂, hlen₂⟩ := exists_scanWord hlen₁
  obtain ⟨ws₃, h₃, hlen₃⟩ := exists_skipWord hlen₂
  obtain ⟨ws₄, h₄, hlen₄⟩ := exists_skipWord hlen₃
  obtain ⟨ws₅, h₅, hlen₅⟩ := exists_skipWord hlen₄
  obtain ⟨type, ws₆, h₆, -⟩ := exists_scanWord hlen₅
  refine ⟨root, mp, type, ?_⟩
  simp only [scan, h₁, h₂, h₃, h₄, h₅, h₆, Option.bind_eq_bind, Option.bind_some, Option.pure_def]

theorem insertPartitions_of_accepts {partitions : ℕ → Option Bytes} (h : m.Accepts mp) :
    insertPartitions partitions (m :: lines) =
      insertPartitions (Function.update partitions (mkdev m.major m.minor) (some mp)) lines := by
  obtain ⟨type, hscan, htype⟩ := h
  rw [insertPartitions, hscan]
  simp only [if_true]
  rw [if_neg fun hother => hother.2 (htype hother.1)]

theorem insertPartitions_of_not_accepted {partitions : ℕ → Option Bytes} (h : ¬ m.Accepted) :
    insertPartitions partitions (m :: lines) = insertPartitions partitions lines := by
  obtain ⟨root, mp, type, hscan⟩ := m.exists_scan
  rw [insertPartitions, hscan]
  simp only
  by_cases htype : m.major = 0 ∧ type ≠ fuseDlnfsType
  · rw [if_pos htype]
  · rw [if_neg htype, if_neg]
    rintro rfl
    exact h ⟨mp, type, hscan, fun hmajor => not_not.mp fun hne => htype ⟨hmajor, hne⟩⟩

/-- The map has, for a key, the mount point of the last line with that key. -/
theorem insertPartitions_eq_some {partitions : ℕ → Option Bytes} {key : ℕ} :
    insertPartitions partitions lines key = some mp ↔
      (∃ front m back, lines = front ++ m :: back ∧ m.Accepts mp ∧ mkdev m.major m.minor = key ∧
        ∀ m' ∈ back, m'.Accepted → mkdev m'.major m'.minor ≠ key) ∨
      (∀ m ∈ lines, m.Accepted → mkdev m.major m.minor ≠ key) ∧ partitions key = some mp := by
  induction lines generalizing partitions with
  | nil => simp [insertPartitions]
  | cons m lines ih =>
    by_cases hm : m.Accepted
    · obtain ⟨mp₀, hmp₀⟩ := hm
      rw [insertPartitions_of_accepts hmp₀, ih]
      constructor
      · rintro (⟨front, m', back, rfl, hrest⟩ | ⟨hnone, hkey⟩)
        · exact .inl ⟨m :: front, m', back, rfl, hrest⟩
        · by_cases hk : mkdev m.major m.minor = key
          · rw [hk, Function.update_self] at hkey
            exact .inl ⟨[], m, lines, rfl, Option.some.inj hkey ▸ hmp₀, hk, hnone⟩
          · rw [Function.update_of_ne (Ne.symm hk)] at hkey
            exact .inr ⟨fun m' hm' => (List.mem_cons.mp hm').elim (fun h _ => h ▸ hk) (hnone m'),
              hkey⟩
      · rintro (⟨front, m', back, heq, hacc, hk, hback⟩ | ⟨hnone, hkey⟩)
        · cases front with
          | nil =>
            obtain ⟨rfl, rfl⟩ := List.cons.inj heq
            exact .inr ⟨hback, by rw [hk, Function.update_self, hmp₀.unique hacc]⟩
          | cons m₁ front =>
            obtain ⟨rfl, rfl⟩ := List.cons.inj heq
            exact .inl ⟨front, m', back, rfl, hacc, hk, hback⟩
        · have hk := hnone m (by simp) ⟨mp₀, hmp₀⟩
          refine .inr ⟨fun m' hm' => hnone m' (List.mem_cons_of_mem _ hm'), ?_⟩
          rwa [Function.update_of_ne (Ne.symm hk)]
    · rw [insertPartitions_of_not_accepted hm, ih]
      constructor
      · rintro (⟨front, m', back, rfl, hrest⟩ | ⟨hnone, hkey⟩)
        · exact .inl ⟨m :: front, m', back, rfl, hrest⟩
        · exact .inr ⟨fun m' hm' => (List.mem_cons.mp hm').elim (fun h hacc => absurd (h ▸ hacc) hm)
            (hnone m'), hkey⟩
      · rintro (⟨front, m', back, heq, hacc, hrest⟩ | ⟨hnone, hkey⟩)
        · cases front with
          | nil => exact absurd ⟨mp, (List.cons.inj heq).1 ▸ hacc⟩ hm
          | cons m₁ front =>
            obtain ⟨rfl, rfl⟩ := List.cons.inj heq
            exact .inl ⟨front, m', back, rfl, hacc, hrest⟩
        · exact .inr ⟨fun m' hm' => hnone m' (List.mem_cons_of_mem _ hm'), hkey⟩

end MountLine

/-! ## The way of a device number -/

/-- No device with the major number 0 is monitored in the samples. -/
def sampleFlags : Vector Bool (maxMinor + 1) := Vector.replicate _ false

end DeepinAnything.Server
