import Mathlib.Data.Finset.Dedup
import Mathlib.Data.Finset.SDiff
import Mathlib.Data.List.TakeWhile
import DeepinAnything.Server.Device

/-!
# The devices without a major number (`vfs_sysfs.c`, `eventsource_genl.cpp`)

The kernel module has a flag for each minor number, and reports the events of a device without a major number only if
its flag is set. The server reads the flags as text, takes away those of devices it does not know and adds the others,
each by a write of its own. All the numbers on the way are text, and eight bits are kept of them.
-/

namespace DeepinAnything.Server

open ByteMem EventMerge

/-- `vfs_unnamed_devices` -/
abbrev UnnamedFlags := Vector Bool (maxMinor + 1)

/-! ## The kernel module -/

/-- The loop of `vfs_unnamed_devices_show`. -/
def showLoop (flags : UnnamedFlags) : List ℕ → Bool → List Char
  | [], _ => []
  | i :: is, first =>
    if flags[i]? = some true then
      (if first then Nat.toDigits 10 i else ',' :: Nat.toDigits 10 i) ++ showLoop flags is false
    else showLoop flags is first

/-- `vfs_unnamed_devices_show` -/
def vfsUnnamedDevicesShow (flags : UnnamedFlags) : List Char :=
  showLoop flags (List.range (maxMinor + 1)) true ++ ['\n']

/-- The kernel's `isspace`. -/
def isSpaceChar (c : Char) : Bool := c.toNat = 32 || 9 ≤ c.toNat && c.toNat ≤ 13 || c.toNat = 160

/-- `sscanf(buf, "%c%hhu", &act, &minor)`: white space before the number is skipped, and eight bits of it are kept. -/
def scanInput (buf : List Char) : Option (Char × ℕ) :=
  match buf with
  | [] => none
  | act :: rest =>
    let digits := (rest.dropWhile isSpaceChar).takeWhile Char.isDigit
    if digits = [] then none else some (act, Nat.ofDigitChars 10 digits 0 % 2 ^ 8)

/-- `vfs_unnamed_devices_store`, without a result for `-EINVAL` -/
def vfsUnnamedDevicesStore (flags : UnnamedFlags) (buf : List Char) : Option UnnamedFlags :=
  match scanInput buf with
  | none => none
  | some (act, minor) =>
    if act = 'e' then some (Vector.replicate _ false)
    else if act = 'a' then some (flags.setIfInBounds minor true)
    else if act = 'r' then some (flags.setIfInBounds minor false)
    else none

/-! ## The server -/

/-- `read_vfs_unnamed_device` of a file with this text. -/
def readVfsUnnamedDevice (text : List Char) : Finset (List Char) :=
  let line := text.take (text.findIdx (· = '\n') + 1)
  (line.dropLast.splitOn ',').toFinset

/-- `write_vfs_unnamed_device` -/
def writeVfsUnnamedDevice (flags : UnnamedFlags) (str : List Char) : UnnamedFlags :=
  (vfsUnnamedDevicesStore flags str).getD flags

/-- `update_vfs_unnamed_device`. `order` is the order in which `foreach` goes through a set, and `snprintf` writes 31
characters at most. -/
def updateVfsUnnamedDevice (order : Finset (List Char) → List (List Char)) (news : Finset (List Char))
    (flags : UnnamedFlags) : UnnamedFlags :=
  let olds := readVfsUnnamedDevice (vfsUnnamedDevicesShow flags)
  let removed := (order (olds \ news)).foldl
    (fun flags minor => writeVfsUnnamedDevice flags (('r' :: minor).take 31)) flags
  (order (news \ olds)).foldl (fun flags minor => writeVfsUnnamedDevice flags (('a' :: minor).take 31)) removed

/-- The set `dlnfs_devs` after the loop of `updatePartitions`. -/
def dlnfsDevs : Finset (List Char) → List MountLine → Finset (List Char)
  | devs, [] => devs
  | devs, m :: lines =>
    match m.scan with
    | none => devs
    | some (root, _, type) =>
      if m.major = 0 ∧ type ≠ fuseDlnfsType then dlnfsDevs devs lines
      else if root = rootDir then
        dlnfsDevs (if m.major = 0 ∧ type = fuseDlnfsType then insert (Nat.toDigits 10 m.minor) devs else devs) lines
      else dlnfsDevs devs lines

/-! ## Text and flags -/

theorem toDigits_inj {m n : ℕ} : Nat.toDigits 10 m = Nat.toDigits 10 n ↔ m = n := by
  refine ⟨fun h => ?_, fun h => h ▸ rfl⟩
  have hvalue := congrArg (Nat.ofDigitChars 10 · 0) h
  simpa only [Nat.ofDigitChars_ten_toDigits] using hvalue

theorem isDigit_toDigits {n : ℕ} {c : Char} (h : c ∈ Nat.toDigits 10 n) : c.isDigit = true :=
  Nat.isDigit_of_mem_toDigits (by decide) (by decide) h

theorem not_mem_toDigits {n : ℕ} {c : Char} (hc : c.isDigit = false) : c ∉ Nat.toDigits 10 n := fun h => by
  rw [isDigit_toDigits h] at hc
  cases hc

theorem isSpaceChar_of_isDigit {c : Char} (h : c.isDigit = true) : isSpaceChar c = false := by
  have hrange : 48 ≤ c.toNat ∧ c.toNat ≤ 57 := Char.isDigit_iff_toNat.mp h
  simp only [isSpaceChar, Bool.or_eq_false_iff, Bool.and_eq_false_iff, decide_eq_false_iff_not]
  omega

theorem flatMap_cons_eq {c : Char} {ls : List (List Char)} (h : ls ≠ []) :
    ls.flatMap (c :: ·) = c :: [c].intercalate ls := by
  induction ls with
  | nil => exact absurd rfl h
  | cons l ls ih =>
    cases ls with
    | nil => simp
    | cons l' ls =>
      rw [List.flatMap_cons, ih (by simp), List.intercalate_cons_cons]
      simp

theorem mem_showLoop {flags : UnnamedFlags} {is : List ℕ} {first : Bool} {c : Char}
    (h : c ∈ showLoop flags is first) : c = ',' ∨ c.isDigit = true := by
  induction is generalizing first with
  | nil => cases h
  | cons i is ih =>
    rw [showLoop] at h
    split at h
    · rcases List.mem_append.mp h with h | h
      · split at h
        · exact .inr (isDigit_toDigits h)
        · exact (List.mem_cons.mp h).imp id isDigit_toDigits
      · exact ih h
    · exact ih h

/-- The numbers whose flags are set, with a comma between two of them. -/
theorem showLoop_eq (flags : UnnamedFlags) (is : List ℕ) :
    showLoop flags is true =
        [','].intercalate ((is.filter fun i => flags[i]? = some true).map (Nat.toDigits 10)) ∧
      showLoop flags is false =
        ((is.filter fun i => flags[i]? = some true).map (Nat.toDigits 10)).flatMap (',' :: ·) := by
  induction is with
  | nil => exact ⟨rfl, rfl⟩
  | cons i is ih =>
    rw [showLoop, showLoop, List.filter_cons]
    by_cases hi : flags[i]? = some true
    · simp only [hi, if_true, decide_true, List.map_cons, ih.2]
      refine ⟨?_, rfl⟩
      cases (is.filter fun i => flags[i]? = some true).map (Nat.toDigits 10) with
      | nil => simp
      | cons x xs =>
        rw [List.intercalate_cons_cons, List.append_assoc, flatMap_cons_eq (by simp)]
        rfl
    · simpa [hi] using ih

theorem mem_flags {flags : UnnamedFlags} {i : ℕ} :
    i ∈ (List.range (maxMinor + 1)).filter (fun i => flags[i]? = some true) ↔ flags[i]? = some true := by
  rw [List.mem_filter, List.mem_range, decide_eq_true_eq, and_iff_right_iff_imp]
  intro h
  exact (Vector.getElem?_eq_some_iff.mp h).1

/-- The server reads the numbers whose flags are set, and an empty one if there are none. -/
theorem mem_readVfsUnnamedDevice {flags : UnnamedFlags} {s : List Char} :
    s ∈ readVfsUnnamedDevice (vfsUnnamedDevicesShow flags) ↔
      (∃ i, flags[i]? = some true ∧ s = Nat.toDigits 10 i) ∨ s = [] ∧ ∀ i : ℕ, flags[i]? ≠ some true := by
  have hline : ∀ c ∈ showLoop flags (List.range (maxMinor + 1)) true, decide (c = '\n') = false := fun c hc => by
    rw [decide_eq_false_iff_not]
    rintro rfl
    rcases mem_showLoop hc with hcomma | hdigit
    · exact absurd hcomma (by decide)
    · exact absurd hdigit (by decide)
  have hread : (vfsUnnamedDevicesShow flags).take ((vfsUnnamedDevicesShow flags).findIdx (· = '\n') + 1) =
      vfsUnnamedDevicesShow flags := by
    refine List.take_of_length_le ?_
    rw [vfsUnnamedDevicesShow, List.findIdx_append, List.findIdx_eq_length_of_false hline, if_neg (lt_irrefl _),
      List.length_append, List.length_singleton]
    omega
  rw [readVfsUnnamedDevice]
  simp only [hread]
  rw [vfsUnnamedDevicesShow, List.dropLast_concat, (showLoop_eq flags _).1, List.mem_toFinset]
  by_cases hnil : (List.range (maxMinor + 1)).filter (fun i => flags[i]? = some true) = []
  · have hnone : ∀ i : ℕ, flags[i]? ≠ some true := fun i hi => by
      rw [← mem_flags, hnil] at hi
      cases hi
    rw [hnil]
    simp [hnone]
  · rw [List.splitOn_intercalate ',' ?_ (by simpa using hnil), List.mem_map]
    · constructor
      · rintro ⟨i, hi, rfl⟩
        exact .inl ⟨i, mem_flags.mp hi, rfl⟩
      · rintro (⟨i, hi, rfl⟩ | ⟨-, hnone⟩)
        · exact ⟨i, mem_flags.mpr hi, rfl⟩
        · obtain ⟨i, hi⟩ := List.exists_mem_of_ne_nil _ hnil
          exact absurd (mem_flags.mp hi) (hnone i)
    · intro l hl
      obtain ⟨i, -, rfl⟩ := List.mem_map.mp hl
      exact not_mem_toDigits (by decide)

/-! ## What a write does -/

/-- What the server writes behind the letter: a number that came from `%u`, or nothing. -/
def IsMinor (minor : List Char) : Prop := minor = [] ∨ ∃ n < 2 ^ 32, minor = Nat.toDigits 10 n

/-- The letter and the number are read as they have been written. -/
theorem scanInput_toDigits (act : Char) {n : ℕ} (hn : n < 2 ^ 32) :
    scanInput ((act :: Nat.toDigits 10 n).take 31) = some (act, n % 2 ^ 8) := by
  have hlength : (Nat.toDigits 10 n).length ≤ 10 :=
    (Nat.length_toDigits_le_iff (by decide) (by decide)).mpr (hn.trans (by decide))
  have hspace : (Nat.toDigits 10 n).dropWhile isSpaceChar = Nat.toDigits 10 n := by
    rw [List.dropWhile_eq_self_iff]
    intro hpos
    rw [isSpaceChar_of_isDigit (isDigit_toDigits (List.getElem_mem hpos))]
    exact Bool.false_ne_true
  have hdigits : (Nat.toDigits 10 n).takeWhile Char.isDigit = Nat.toDigits 10 n :=
    List.takeWhile_eq_self_iff.mpr fun c hc => isDigit_toDigits hc
  rw [List.take_of_length_le (by rw [List.length_cons]; omega), scanInput]
  simp only [hspace, hdigits, Nat.toDigits_ne_nil, if_false, Nat.ofDigitChars_ten_toDigits]

/-- The letters of a write, and what the flag is set to. -/
def Sets (act : Char) (value : Bool) : Prop := act = 'a' ∧ value = true ∨ act = 'r' ∧ value = false

variable {flags : UnnamedFlags} {act : Char} {value : Bool} {minor : List Char} {minors : List (List Char)} {i : ℕ}

theorem writeVfsUnnamedDevice_toDigits (hact : Sets act value) {n : ℕ} (hn : n < 2 ^ 32) :
    writeVfsUnnamedDevice flags ((act :: Nat.toDigits 10 n).take 31) = flags.setIfInBounds (n % 2 ^ 8) value := by
  rw [writeVfsUnnamedDevice, vfsUnnamedDevicesStore, scanInput_toDigits act hn]
  rcases hact with ⟨rfl, rfl⟩ | ⟨rfl, rfl⟩ <;> rfl

/-- A write sets the flag of its number, if it has one. -/
theorem getElem?_write (hact : Sets act value) (h : IsMinor minor) :
    (writeVfsUnnamedDevice flags ((act :: minor).take 31))[i]? = some true ↔
      (∃ n, Nat.toDigits 10 n = minor ∧ n % 2 ^ 8 = i) ∧ value = true ∨
        (¬ ∃ n, Nat.toDigits 10 n = minor ∧ n % 2 ^ 8 = i) ∧ flags[i]? = some true := by
  rcases h with rfl | ⟨n, hn, rfl⟩
  · have hnone : ¬ ∃ n, Nat.toDigits 10 n = [] ∧ n % 2 ^ 8 = i := by
      rintro ⟨n, hnil, -⟩
      exact Nat.toDigits_ne_nil hnil
    have hwrite : writeVfsUnnamedDevice flags ([act].take 31) = flags := rfl
    rw [hwrite]
    simp only [hnone, false_and, false_or, not_false_iff, true_and]
  · have hsame : (∃ n', Nat.toDigits 10 n' = Nat.toDigits 10 n ∧ n' % 2 ^ 8 = i) ↔ n % 2 ^ 8 = i := by
      simp only [toDigits_inj, exists_eq_left]
    have hlt : n % 2 ^ 8 < maxMinor + 1 := Nat.mod_lt _ (by decide)
    rw [writeVfsUnnamedDevice_toDigits hact hn, Vector.getElem?_setIfInBounds, if_pos hlt, hsame]
    by_cases hi : n % 2 ^ 8 = i
    · rw [if_pos hi]
      simp only [hi, true_and, not_true, false_and, or_false, Option.some.injEq]
    · rw [if_neg hi]
      simp only [hi, false_and, false_or, not_false_iff, true_and]

/-- The loops over a set of numbers: their flags are all set to the same. -/
theorem getElem?_foldl_write (hact : Sets act value) (h : ∀ minor ∈ minors, IsMinor minor) :
    (minors.foldl (fun flags minor => writeVfsUnnamedDevice flags ((act :: minor).take 31)) flags)[i]? = some true ↔
      (∃ n, Nat.toDigits 10 n ∈ minors ∧ n % 2 ^ 8 = i) ∧ value = true ∨
        (¬ ∃ n, Nat.toDigits 10 n ∈ minors ∧ n % 2 ^ 8 = i) ∧ flags[i]? = some true := by
  induction minors generalizing flags with
  | nil => simp
  | cons minor minors ih =>
    have hcons : (∃ n, Nat.toDigits 10 n ∈ minor :: minors ∧ n % 2 ^ 8 = i) ↔
        (∃ n, Nat.toDigits 10 n = minor ∧ n % 2 ^ 8 = i) ∨ ∃ n, Nat.toDigits 10 n ∈ minors ∧ n % 2 ^ 8 = i := by
      simp only [List.mem_cons, or_and_right, exists_or]
    rw [List.foldl_cons, ih fun m hm => h m (List.mem_cons_of_mem _ hm), getElem?_write hact (h _ (by simp)), hcons]
    by_cases hlater : ∃ n, Nat.toDigits 10 n ∈ minors ∧ n % 2 ^ 8 = i
    · simp only [hlater, or_true, true_and, not_true, false_and, or_false]
    · simp only [hlater, or_false, false_and, false_or, not_false_iff, true_and]

/-! ## What an update does -/

variable {order : Finset (List Char) → List (List Char)} {news : Finset (List Char)} {lines : List MountLine}

/-- After an update the flags are those of the new numbers, of which eight bits are kept. -/
theorem getElem?_updateVfsUnnamedDevice (horder : ∀ minors, (order minors).toFinset = minors)
    (hnews : ∀ minor ∈ news, ∃ n < 2 ^ 32, minor = Nat.toDigits 10 n) :
    (updateVfsUnnamedDevice order news flags)[i]? = some true ↔ ∃ n, Nat.toDigits 10 n ∈ news ∧ n % 2 ^ 8 = i := by
  have hmem : ∀ minors minor, minor ∈ order minors ↔ minor ∈ minors := fun minors minor => by
    rw [← List.mem_toFinset, horder]
  have hsmall : ∀ {j : ℕ}, flags[j]? = some true → j < 2 ^ 8 := fun hj =>
    (Vector.getElem?_eq_some_iff.mp hj).1
  have holds : ∀ n, Nat.toDigits 10 n ∈ readVfsUnnamedDevice (vfsUnnamedDevicesShow flags) ↔
      flags[n]? = some true := by
    intro n
    rw [mem_readVfsUnnamedDevice]
    constructor
    · rintro (⟨j, hj, heq⟩ | ⟨hnil, -⟩)
      · rwa [toDigits_inj.mp heq]
      · exact absurd hnil Nat.toDigits_ne_nil
    · exact fun h => .inl ⟨n, h, rfl⟩
  have hremoves : ∀ minor ∈ order (readVfsUnnamedDevice (vfsUnnamedDevicesShow flags) \ news), IsMinor minor := by
    intro minor hminor
    rcases mem_readVfsUnnamedDevice.mp (Finset.mem_sdiff.mp ((hmem _ _).mp hminor)).1 with ⟨j, hj, rfl⟩ | ⟨rfl, -⟩
    · exact .inr ⟨j, (hsmall hj).trans (by decide), rfl⟩
    · exact .inl rfl
  have hadds : ∀ minor ∈ order (news \ readVfsUnnamedDevice (vfsUnnamedDevicesShow flags)), IsMinor minor :=
    fun minor hminor => .inr (hnews minor (Finset.mem_sdiff.mp ((hmem _ _).mp hminor)).1)
  rw [updateVfsUnnamedDevice, getElem?_foldl_write (.inl ⟨rfl, rfl⟩) hadds,
    getElem?_foldl_write (.inr ⟨rfl, rfl⟩) hremoves]
  simp only [hmem, Finset.mem_sdiff, holds, and_true, Bool.false_eq_true, and_false, false_or]
  constructor
  · rintro (⟨n, ⟨hn, -⟩, hi⟩ | ⟨-, hkept, hflag⟩)
    · exact ⟨n, hn, hi⟩
    · -- a flag that stays is that of a new number
      have hnew : Nat.toDigits 10 i ∈ news := by
        by_contra hnot
        exact hkept ⟨i, ⟨hflag, hnot⟩, Nat.mod_eq_of_lt (hsmall hflag)⟩
      exact ⟨i, hnew, Nat.mod_eq_of_lt (hsmall hflag)⟩
  · rintro ⟨n, hn, hi⟩
    by_cases hadd : ∃ n, (Nat.toDigits 10 n ∈ news ∧ ¬ flags[n]? = some true) ∧ n % 2 ^ 8 = i
    · exact .inl hadd
    · -- the number is known already, and is all of what is kept of it
      have hflag : flags[n]? = some true := by
        by_contra hnot
        exact hadd ⟨n, ⟨hn, hnot⟩, hi⟩
      have hin : n = i := (Nat.mod_eq_of_lt (hsmall hflag)).symm.trans hi
      refine .inr ⟨hadd, ?_, hin ▸ hflag⟩
      rintro ⟨k, ⟨hk, hknot⟩, hki⟩
      have hkn : k = n := by rw [← Nat.mod_eq_of_lt (hsmall hk), hki, hin]
      exact hknot (hkn ▸ hn)

/-- The numbers that the server wants to be set are those of the lines that it accepts. -/
theorem mem_dlnfsDevs {devs : Finset (List Char)} : minor ∈ dlnfsDevs devs lines ↔
    minor ∈ devs ∨ ∃ m ∈ lines, m.Accepted ∧ m.major = 0 ∧ minor = Nat.toDigits 10 m.minor := by
  induction lines generalizing devs with
  | nil => simp [dlnfsDevs]
  | cons m lines ih =>
    obtain ⟨root, mp, type, hscan⟩ := m.exists_scan
    have haccepted : m.Accepted ↔ root = rootDir ∧ (m.major = 0 → type = fuseDlnfsType) := by
      simp only [MountLine.Accepted, MountLine.Accepts, hscan, Option.some.injEq, Prod.mk.injEq]
      constructor
      · rintro ⟨_, _, ⟨hroot, -, rfl⟩, htype⟩
        exact ⟨hroot, htype⟩
      · rintro ⟨hroot, htype⟩
        exact ⟨mp, type, ⟨hroot, rfl, rfl⟩, htype⟩
    rw [dlnfsDevs, hscan]
    simp only [List.exists_mem_cons_iff, haccepted]
    by_cases htype : m.major = 0 ∧ type ≠ fuseDlnfsType
    · rw [if_pos htype, ih]
      refine or_congr_right (or_iff_right ?_).symm
      rintro ⟨⟨-, heq⟩, hmajor, -⟩
      exact htype.2 (heq hmajor)
    · rw [if_neg htype]
      by_cases hr : root = rootDir
      · rw [if_pos hr, ih]
        by_cases hmajor : m.major = 0
        · have heq : type = fuseDlnfsType := not_not.mp fun hne => htype ⟨hmajor, hne⟩
          rw [if_pos ⟨hmajor, heq⟩, Finset.mem_insert, or_comm (a := minor = _), or_assoc]
          simp [hr, hmajor, heq]
        · rw [if_neg fun h => hmajor h.1]
          simp [hmajor]
      · rw [if_neg hr, ih]
        simp [hr]

/-! ## The module and the server -/

/-- The kernel module lets the events of a device without a major number through just when the server finds a mount
point for them. -/
def Agrees (flags : UnnamedFlags) (s : EventSource) : Prop :=
  ∀ dev, kernelMajor dev = 0 → kernelMinor dev ≤ maxMinor →
    (isInvalidDevice flags dev = some false ↔
      (s.rootOf (kernelMajor dev % 2 ^ 16) (kernelMinor dev % 2 ^ 8)).isSome)

/-- The last of the lines with a key. -/
theorem exists_last_accepted {key : ℕ} (h : ∃ m ∈ lines, m.Accepted ∧ mkdev m.major m.minor = key) :
    ∃ front m back, lines = front ++ m :: back ∧ m.Accepted ∧ mkdev m.major m.minor = key ∧
      ∀ m' ∈ back, m'.Accepted → mkdev m'.major m'.minor ≠ key := by
  induction lines with
  | nil =>
    obtain ⟨m, hm, -⟩ := h
    cases hm
  | cons x lines ih =>
    by_cases hlater : ∃ m ∈ lines, m.Accepted ∧ mkdev m.major m.minor = key
    · obtain ⟨front, m, back, rfl, hrest⟩ := ih hlater
      exact ⟨x :: front, m, back, rfl, hrest⟩
    · obtain ⟨m, hm, hacc, hkey⟩ := h
      rcases List.mem_cons.mp hm with rfl | hm
      · exact ⟨[], m, lines, rfl, hacc, hkey, fun m' hm' hacc' hkey' => hlater ⟨m', hm', hacc', hkey'⟩⟩
      · exact absurd ⟨m, hm, hacc, hkey⟩ hlater

/-- The server finds a mount point just for the devices of the lines that it accepts. -/
theorem isSome_rootOf_iff {s : EventSource} (hi : i ≤ maxMinor) :
    ((s.updatePartitions (some lines)).rootOf 0 i).isSome ↔
      ∃ m ∈ lines, m.Accepted ∧ m.major = 0 ∧ m.minor = i := by
  have hlt : i < 2 ^ 8 := Nat.lt_succ_of_le hi
  have hkey : ∀ m : MountLine, mkdev m.major m.minor = mkdev 0 i ↔ m.major = 0 ∧ m.minor = i := fun m => by
    rw [mkdev_eq_iff, Nat.div_eq_of_lt hlt, Nat.mod_eq_of_lt hlt, Nat.or_zero, Nat.or_eq_zero_iff]
    omega
  rw [EventSource.rootOf, Option.isSome_map, Option.isSome_iff_exists]
  constructor
  · rintro ⟨mp, hmp⟩
    rcases MountLine.insertPartitions_eq_some.mp hmp with ⟨front, m, back, rfl, hacc, hm, -⟩ | ⟨-, hnone⟩
    · exact ⟨m, by simp, ⟨mp, hacc⟩, (hkey m).mp hm⟩
    · cases hnone
  · rintro ⟨m, hm, hacc, hnumber⟩
    obtain ⟨front, m', back, hsplit, ⟨mp, hacc'⟩, hkey', hback⟩ :=
      exists_last_accepted ⟨m, hm, hacc, (hkey m).mpr hnumber⟩
    exact ⟨mp, MountLine.insertPartitions_eq_some.mpr (.inl ⟨front, m', back, hsplit, hacc', hkey', hback⟩)⟩

/-- What the kernel module looks up for a device without a major number. -/
theorem isInvalidDevice_eq_false_iff {dev : ℕ} (hmajor : kernelMajor dev = 0) :
    isInvalidDevice flags dev = some false ↔ flags[kernelMinor dev]? = some true := by
  rw [isInvalidDevice, if_neg (not_not.mpr hmajor), Option.map_eq_some_iff]
  simp

/-- Whatever the flags were, an update leaves those of the accepted lines, cut to eight bits. The module and the
server then agree just when each number that is cut is also that of an accepted line. -/
theorem update_agrees_iff (order : Finset (List Char) → List (List Char))
    (horder : ∀ minors, (order minors).toFinset = minors) (flags : UnnamedFlags) (s : EventSource)
    (lines : List MountLine) (hlines : ∀ m ∈ lines, m.minor < 2 ^ 32) :
    (∀ i, (updateVfsUnnamedDevice order (dlnfsDevs ∅ lines) flags)[i]? = some true ↔
      ∃ m ∈ lines, m.Accepted ∧ m.major = 0 ∧ m.minor % 2 ^ 8 = i) ∧
    (Agrees (updateVfsUnnamedDevice order (dlnfsDevs ∅ lines) flags) (s.updatePartitions (some lines)) ↔
      ∀ m ∈ lines, m.Accepted → m.major = 0 →
        ∃ m' ∈ lines, m'.Accepted ∧ m'.major = 0 ∧ m'.minor = m.minor % 2 ^ 8) := by
  have hdevs : ∀ minor, minor ∈ dlnfsDevs ∅ lines ↔
      ∃ m ∈ lines, m.Accepted ∧ m.major = 0 ∧ minor = Nat.toDigits 10 m.minor := fun minor => by
    simp [mem_dlnfsDevs]
  have hflags : ∀ i, (updateVfsUnnamedDevice order (dlnfsDevs ∅ lines) flags)[i]? = some true ↔
      ∃ m ∈ lines, m.Accepted ∧ m.major = 0 ∧ m.minor % 2 ^ 8 = i := fun i => by
    rw [getElem?_updateVfsUnnamedDevice horder]
    · constructor
      · rintro ⟨n, hn, hi⟩
        obtain ⟨m, hm, hacc, hmajor, heq⟩ := (hdevs _).mp hn
        exact ⟨m, hm, hacc, hmajor, toDigits_inj.mp heq ▸ hi⟩
      · rintro ⟨m, hm, hacc, hmajor, hi⟩
        exact ⟨m.minor, (hdevs _).mpr ⟨m, hm, hacc, hmajor, rfl⟩, hi⟩
    · intro minor hminor
      obtain ⟨m, hm, -, -, rfl⟩ := (hdevs minor).mp hminor
      exact ⟨m.minor, hlines m hm, rfl⟩
  refine ⟨hflags, fun h m hm hacc hmajor => ?_, fun h dev hdev hminor => ?_⟩
  · -- the device that the number is cut to
    have hlt : m.minor % 2 ^ 8 < 2 ^ 8 := Nat.mod_lt _ (by decide)
    have hdevMajor : kernelMajor (m.minor % 2 ^ 8) = 0 := by
      rw [kernelMajor, Nat.shiftRight_eq_div_pow]
      omega
    have hdevMinor : kernelMinor (m.minor % 2 ^ 8) = m.minor % 2 ^ 8 :=
      Nat.mod_eq_of_lt (hlt.trans (by decide))
    have hle : m.minor % 2 ^ 8 ≤ maxMinor := Nat.le_of_lt_succ hlt
    have hroot := (h (m.minor % 2 ^ 8) hdevMajor (by rwa [hdevMinor])).mp (by
      rw [isInvalidDevice_eq_false_iff hdevMajor, hdevMinor, hflags]
      exact ⟨m, hm, hacc, hmajor, rfl⟩)
    rw [hdevMajor, hdevMinor, Nat.mod_mod] at hroot
    exact (isSome_rootOf_iff hle).mp hroot
  · have hmod : kernelMinor dev % 2 ^ 8 = kernelMinor dev := Nat.mod_eq_of_lt (Nat.lt_succ_of_le hminor)
    rw [isInvalidDevice_eq_false_iff hdev, hflags, hdev, hmod, Nat.zero_mod, isSome_rootOf_iff hminor]
    constructor
    · rintro ⟨m, hm, hacc, hmajor, heq⟩
      obtain ⟨m', hm', hacc', hmajor', heq'⟩ := h m hm hacc hmajor
      exact ⟨m', hm', hacc', hmajor', heq'.trans heq⟩
    · rintro ⟨m, hm, hacc, hmajor, heq⟩
      exact ⟨m, hm, hacc, hmajor, by rw [heq, hmod]⟩

/-- A mount of `dlnfs` with a minor number: `0:N / / rw shared:1 - fuse.dlnfs dlnfs rw` -/
def sampleDlnfs (minor : ℕ) : MountLine where
  major := 0
  minor := minor
  root := rootDir
  mountPoint := rootDir
  options := [114, 119]
  optional := [[115, 104, 97, 114, 101, 100, 58, 49]]
  type := fuseDlnfsType
  source := [100, 108, 110, 102, 115]
  superOptions := [114, 119]
  nonblank := by decide

theorem sampleDlnfs_accepted (minor : ℕ) : (sampleDlnfs minor).Accepted :=
  ⟨rootDir, fuseDlnfsType, rfl, fun _ => rfl⟩

theorem update_agrees_iff_sample :
    (∀ i, (updateVfsUnnamedDevice Finset.toList (dlnfsDevs ∅ [sampleDlnfs 45]) sampleFlags)[i]? = some true ↔
      i = 45) ∧
    Agrees (updateVfsUnnamedDevice Finset.toList (dlnfsDevs ∅ [sampleDlnfs 45]) sampleFlags)
      ((EventSource.initial none).updatePartitions (some [sampleDlnfs 45])) := by
  have h := update_agrees_iff Finset.toList Finset.toList_toFinset sampleFlags (.initial none) [sampleDlnfs 45]
    fun m hm => by
      rw [List.mem_singleton.mp hm]
      decide
  refine ⟨fun i => (h.1 i).trans ⟨?_, ?_⟩, h.2.mpr fun m hm hacc hmajor => ?_⟩
  · rintro ⟨m, hm, -, -, hi⟩
    rw [List.mem_singleton.mp hm] at hi
    exact hi.symm
  · rintro rfl
    exact ⟨sampleDlnfs 45, by simp, sampleDlnfs_accepted 45, rfl, rfl⟩
  · refine ⟨m, hm, hacc, hmajor, ?_⟩
    rw [List.mem_singleton.mp hm]
    rfl

end DeepinAnything.Server
