import DeepinAnything.FsBuf.Layout

/-!
# The scans on an image

What the reading functions of `fs_buf.c` give on the image of a tree: on one entry, on a run, and
along the way from a run up to the root.
-/

namespace DeepinAnything

open ByteMem OrderedForest OrderedForest.Forest

/-- The size limits that keep every offset exact in 32 bits. -/
structure FsBuf.Sized (b : FsBuf) : Prop where
  tail_le : b.tail ≤ b.capacity
  capacity_le : b.capacity ≤ maxFsbufSize

namespace FsBuf

variable {b : FsBuf}

theorem Sized.tail_le_max (hb : b.Sized) : b.tail ≤ 2 ^ 30 := le_trans hb.tail_le hb.capacity_le

theorem Sized.with_head (hb : b.Sized) (m : Mem) : ({ b with head := m } : FsBuf).Sized :=
  ⟨hb.tail_le, hb.capacity_le⟩

/-! ## Single entries -/

/-- What a tag says is a 30-bit number. -/
theorem getReloffByTag_lt (b : FsBuf) (tagOff : ℕ) : b.getReloffByTag tagOff < 2 ^ 30 := by
  have h := b.head.load32_lt tagOff
  simp only [getReloffByTag, fsTagMask, fsTagBits]
  omega

theorem lt_nextName (b : FsBuf) (off : ℕ) : off < b.nextName off := by
  rw [nextName]
  split <;> omega

theorem le_loopFuel {n : ℕ} (h : n ≤ b.tail) : n ≤ b.loopFuel := by
  calc n ≤ b.tail + 1 := by omega
    _ ≤ (b.tail + 1) * (b.tail + 1) := Nat.le_mul_self _
    _ ≤ b.loopFuel := Nat.le_succ _

theorem strAt_of_holds {off : ℕ} {n rest : Bytes} (h : b.head.Holds off (n ++ 0 :: rest))
    (hn : (0 : UInt8) ∉ n) (hlt : off + n.length < b.capacity) : b.strAt off = n := by
  have hhead : b.head.Holds off (n ++ [0]) := by
    have := (Mem.holds_append _ n (0 :: rest)).mp h
    exact (Mem.holds_append _ n [0]).mpr ⟨this.1, this.2.1, trivial⟩
  exact Mem.cstr_of_holds hhead hn (by omega)

theorem get_ne_zero_of_holds {off : ℕ} {n rest : Bytes} (h : b.head.Holds off (n ++ rest))
    (hn : NameOk n) : b.head.get off ≠ 0 := by
  obtain ⟨c, cs, rfl⟩ := List.exists_cons_of_ne_nil hn.1
  rw [h.1]
  exact fun h0 => hn.2.1 (by simp [h0])

theorem get_ne_zero_of_entries {off d : ℕ} {t : Tree} (h : EntriesAt b.head off d t)
    (hv : t.Valid NameOk) (ht : t ≠ .nil) : b.head.get off ≠ 0 := by
  cases t with
  | nil => exact absurd rfl ht
  | leaf n r => exact get_ne_zero_of_holds h.1 hv.1
  | node n k r => exact get_ne_zero_of_holds h.1 hv.1

theorem ofNat_dirTag_ne_zero (rel : ℕ) : UInt8.ofNat (4 * rel + fsTagDir) ≠ fsTagFile := by
  intro h
  have := congrArg UInt8.toNat h
  simp only [UInt8.toNat_ofNat', fsTagDir, fsTagFile, UInt8.toNat_zero] at this
  omega

theorem getReloffByTag_of_holds {off rel : ℕ} (h : b.head.Holds off (le32 (4 * rel + fsTagDir)))
    (hrel : rel < 2 ^ 30) : b.getReloffByTag off = rel := by
  have : b.head.load32 off = 4 * rel + fsTagDir :=
    Mem.load32_of_holds h (by rw [fsTagDir]; omega)
  simp only [getReloffByTag, this, fsTagDir, fsTagMask, fsTagBits]
  omega

section Entry

variable {off : ℕ} {n : Bytes}

section File

variable (h : FileAt b.head off n) (hn : NameOk n) (hlt : off + n.length < b.capacity)
include h hn hlt

theorem strAt_of_file : b.strAt off = n := strAt_of_holds h hn.2.1 hlt

theorem tag_of_file : b.head.get (off + b.strlen off + 1) = fsTagFile := by
  rw [strlen, strAt_of_file h hn hlt]
  exact ((Mem.holds_append _ n _).mp h).2.2.1

theorem doIsFile_of_file : b.doIsFile off = true := by
  simp [doIsFile, tag_of_file h hn hlt]

theorem nextName_of_file : b.nextName off = off + n.length + 2 := by
  simp only [nextName, tag_of_file h hn hlt, if_true]
  rw [strlen, strAt_of_file h hn hlt]

theorem getKidsOffset_of_file : b.getKidsOffset off = 0 := by
  simp [getKidsOffset, doIsFile_of_file h hn hlt]

end File

section Dir

variable {rel : ℕ} (h : DirAt b.head off n rel) (hn : NameOk n) (hlt : off + n.length < b.capacity)
include h hn hlt

theorem strAt_of_dir : b.strAt off = n := strAt_of_holds h hn.2.1 hlt

theorem tag_of_dir : b.head.get (off + b.strlen off + 1) ≠ fsTagFile := by
  rw [strlen, strAt_of_dir h hn hlt, ((Mem.holds_append _ n _).mp h).2.2.1]
  exact ofNat_dirTag_ne_zero rel

theorem doIsFile_of_dir : b.doIsFile off = false := by
  simp [doIsFile, tag_of_dir h hn hlt]

theorem nextName_of_dir : b.nextName off = off + n.length + 5 := by
  simp only [nextName, tag_of_dir h hn hlt, if_false]
  rw [strlen, strAt_of_dir h hn hlt]

theorem getKidsOffset_of_dir (hrel : off + n.length + 1 + rel ≤ 2 ^ 30) :
    b.getKidsOffset off = if rel = 0 then 0 else off + n.length + 1 + rel := by
  have hlen : b.strlen off = n.length := by rw [strlen, strAt_of_dir h hn hlt]
  have htag : b.getReloffByTag (off + n.length + 1) = rel :=
    getReloffByTag_of_holds ((Mem.holds_append _ n _).mp h).2.2 (by omega)
  simp only [getKidsOffset, doIsFile_of_dir h hn hlt, Bool.false_eq_true, if_false, hlen, htag]
  split
  · rfl
  · exact u32_of_lt (by omega)

end Dir

theorem get_of_up {rel : ℕ} (h : UpAt b.head off rel) : b.head.get off = 0 := h.1

theorem getReloffByTag_of_up {rel : ℕ} (h : UpAt b.head off rel) (hrel : rel < 2 ^ 30) :
    b.getReloffByTag (off + 1) = rel :=
  getReloffByTag_of_holds h.2 hrel

end Entry

/-! ## Runs -/

variable (hb : b.Sized)
include hb

/-- The scan to the end of a run. -/
theorem getFolderTailOffset_eq {off d : ℕ} {t : Tree} (h : EntriesAt b.head off d t)
    (hz : b.head.get (off + entriesSize t) = 0) (hv : t.Valid NameOk)
    (hfit : off + entriesSize t < b.tail) :
    b.getFolderTailOffset off = off + entriesSize t := by
  have hcap := hb.tail_le
  suffices hloop : ∀ (t : Tree) (off d fuel : ℕ), EntriesAt b.head off d t →
      b.head.get (off + entriesSize t) = 0 → t.Valid NameOk → off + entriesSize t < b.tail →
      t.names.length < fuel → b.getFolderTailOffsetLoop fuel off = off + entriesSize t by
    exact hloop t off d b.tail h hz hv hfit (lt_of_le_of_lt (length_names_le t) (by omega))
  clear h hz hv hfit t off d
  intro t
  induction t with
  | nil =>
    intro off d fuel _ hz _ hfit hfuel
    obtain ⟨fuel, rfl⟩ : ∃ k, fuel = k + 1 := ⟨fuel - 1, by omega⟩
    simp only [entriesSize_nil, Nat.add_zero] at hz hfit ⊢
    simp [getFolderTailOffsetLoop, hfit, hz]
  | leaf n r ih =>
    intro off d fuel h hz hv hfit hfuel
    obtain ⟨fuel, rfl⟩ : ∃ k, fuel = k + 1 := ⟨fuel - 1, by omega⟩
    simp only [entriesSize_leaf, names_leaf, List.length_cons] at hz hfit hfuel ⊢
    have hne := get_ne_zero_of_holds h.1 hv.1
    rw [getFolderTailOffsetLoop, if_pos (by omega), if_pos hne,
      nextName_of_file h.1 hv.1 (by omega),
      ih _ d fuel h.2 (by simpa only [Nat.add_assoc] using hz) hv.2.2 (by omega) (by omega)]
    omega
  | node n k r _ ih =>
    intro off d fuel h hz hv hfit hfuel
    obtain ⟨fuel, rfl⟩ : ∃ k, fuel = k + 1 := ⟨fuel - 1, by omega⟩
    simp only [entriesSize_node, names_node, List.length_cons] at hz hfit hfuel ⊢
    have hne := get_ne_zero_of_holds h.1 hv.1
    rw [getFolderTailOffsetLoop, if_pos (by omega), if_pos hne,
      nextName_of_dir h.1 hv.1 (by omega),
      ih _ _ fuel h.2 (by simpa only [Nat.add_assoc] using hz) hv.2.2.2 (by omega) (by omega)]
    omega

/-- `get_insert_offset` over siblings behind the folder: it stops at the first that has kids. -/
theorem getInsertOffsetLoop_entries {t : Tree} {nameOff off d : ℕ} (fuel : ℕ)
    (h : EntriesAt b.head off d t) (hv : t.Valid NameOk)
    (hfit : off + entriesSize t + 5 + d + belowSize t ≤ b.tail) (hoff : nameOff < off) :
    b.getInsertOffsetLoop (fuel + t.names.length) nameOff off =
      if belowSize t ≠ 0 then some (off + entriesSize t + 5 + d)
      else b.getInsertOffsetLoop fuel nameOff (off + entriesSize t) := by
  have hcap := hb.tail_le
  have hmax := hb.tail_le_max
  induction t generalizing off d with
  | nil => simp
  | leaf n r ih =>
    simp only [entriesSize_leaf, belowSize_leaf, names_leaf, List.length_cons] at hfit ⊢
    have hne := get_ne_zero_of_holds h.1 hv.1
    have hkids := getKidsOffset_of_file h.1 hv.1 (by omega)
    rw [← Nat.add_assoc, getInsertOffsetLoop, if_pos (by omega), if_neg hne, hkids,
      if_neg (by omega), nextName_of_file h.1 hv.1 (by omega),
      ih h.2 hv.2.2 (by omega) (by omega)]
    simp only [Nat.add_assoc]
  | node n k r _ ih =>
    simp only [entriesSize_node, belowSize_node, names_node, List.length_cons] at hfit ⊢
    have hne := get_ne_zero_of_holds h.1 hv.1
    rw [← Nat.add_assoc, getInsertOffsetLoop, if_pos (by omega), if_neg hne]
    by_cases hk : k = .nil
    · subst hk
      have hkids := getKidsOffset_of_dir h.1 hv.1 (by omega) (by simp; omega)
      simp only [if_true] at hkids
      have hrest := h.2
      rw [treeSize_nil, Nat.add_zero] at hrest
      rw [hkids, if_neg (by omega), nextName_of_dir h.1 hv.1 (by omega),
        ih hrest hv.2.2.2 (by simp at hfit; omega) (by omega)]
      simp only [treeSize_nil, Nat.zero_add, Nat.add_zero, Nat.add_assoc]
    · have hpos : treeSize k ≠ 0 := fun h0 => hk (treeSize_eq_zero_iff.mp h0)
      have hkids := getKidsOffset_of_dir h.1 hv.1 (by omega) (by simp only [hk, if_false]; omega)
      have hrel : ¬ 9 + entriesSize r + d = 0 := by omega
      have hbelow : treeSize k + belowSize r ≠ 0 := by omega
      simp only [hk, if_false, hrel] at hkids
      rw [hkids, if_pos (by omega)]
      simp only [hbelow, ne_eq, not_false_eq_true, if_true, Option.some.injEq]
      omega

end FsBuf

/-- Where the run of the last directory with kids among siblings is, the runs below the siblings
starting at `bk`; `last` if there is none. -/
def lastRun : ℕ → Tree → ℕ → ℕ
  | _, .nil, last => last
  | bk, .leaf _ r, last => lastRun bk r last
  | bk, .node _ k r, last => lastRun (bk + treeSize k) r (if k = .nil then last else bk)

theorem lastRun_of_belowSize_eq_zero {t : Tree} (bk last : ℕ) (h : belowSize t = 0) :
    lastRun bk t last = last := by
  induction t generalizing bk with
  | nil => rfl
  | leaf n r ih => exact ih bk h
  | node n k r _ ih =>
    rw [belowSize_node] at h
    have hk : k = .nil := treeSize_eq_zero_iff.mp (by omega)
    rw [lastRun, if_pos hk, ih _ (by omega)]

theorem exists_lastRun {t : Tree} (bk last : ℕ) (h : belowSize t ≠ 0) :
    ∃ l n k r, t = l ++ .node n k r ∧ k ≠ .nil ∧ belowSize r = 0 ∧
      lastRun bk t last = bk + belowSize l := by
  induction t generalizing bk last with
  | nil => simp at h
  | leaf n r ih =>
    obtain ⟨l, m, k, r, rfl, hk, hr, hlast⟩ := ih bk last h
    exact ⟨.leaf n l, m, k, r, rfl, hk, hr, hlast⟩
  | node n k r _ ih =>
    by_cases hr : belowSize r = 0
    · have hk : k ≠ .nil := by
        rintro rfl
        simp [hr] at h
      exact ⟨.nil, n, k, r, rfl, hk, hr, by simp [lastRun, hk, lastRun_of_belowSize_eq_zero _ _ hr]⟩
    · obtain ⟨l, m, k', r, rfl, hk, hr', hlast⟩ :=
        ih (bk + treeSize k) (if k = .nil then last else bk) hr
      exact ⟨.node n k l, m, k', r, rfl, hk, hr', by rw [lastRun, hlast, belowSize_node]; omega⟩

namespace FsBuf

variable {b : FsBuf} (hb : b.Sized)
include hb

/-- `get_tree_end_offset` along one run. -/
theorem getTreeEndOffsetLoop_entries {t : Tree} {off d last : ℕ} (fuel : ℕ)
    (h : EntriesAt b.head off d t) (hv : t.Valid NameOk)
    (hfit : off + entriesSize t + 5 + d + belowSize t ≤ b.tail) :
    b.getTreeEndOffsetLoop (fuel + t.names.length) off last =
      b.getTreeEndOffsetLoop fuel (off + entriesSize t)
        (lastRun (off + entriesSize t + 5 + d) t last) := by
  have hcap := hb.tail_le
  have hmax := hb.tail_le_max
  induction t generalizing off d last with
  | nil => simp [lastRun]
  | leaf n r ih =>
    simp only [entriesSize_leaf, belowSize_leaf, names_leaf, List.length_cons] at hfit ⊢
    have hne := get_ne_zero_of_holds h.1 hv.1
    have hkids := getKidsOffset_of_file h.1 hv.1 (by omega)
    rw [← Nat.add_assoc, getTreeEndOffsetLoop, if_pos (by omega), if_pos hne]
    simp only [hkids, ne_eq, not_true_eq_false, if_false, lastRun]
    rw [nextName_of_file h.1 hv.1 (by omega), ih h.2 hv.2.2 (by omega)]
    simp only [Nat.add_assoc]
  | node n k r _ ih =>
    simp only [entriesSize_node, belowSize_node, names_node, List.length_cons] at hfit ⊢
    have hne := get_ne_zero_of_holds h.1 hv.1
    have hkids := getKidsOffset_of_dir h.1 hv.1 (by omega) (by split <;> omega)
    have hlast : (if b.getKidsOffset off ≠ 0 then b.getKidsOffset off else last) =
        if k = .nil then last else off + (n.length + 5 + entriesSize r) + 5 + d := by
      rw [hkids]
      by_cases hk : k = .nil
      · simp [hk]
      · have hrel : ¬ 9 + entriesSize r + d = 0 := by omega
        simp only [hk, if_false, hrel]
        rw [if_pos (by omega)]
        omega
    rw [← Nat.add_assoc, getTreeEndOffsetLoop, if_pos (by omega), if_pos hne]
    simp only [hlast, lastRun]
    have hoff : off + n.length + 5 + entriesSize r = off + (n.length + 5 + entriesSize r) := by omega
    have hbk : off + (n.length + 5 + entriesSize r) + 5 + (d + treeSize k) =
        off + (n.length + 5 + entriesSize r) + 5 + d + treeSize k := by omega
    rw [nextName_of_dir h.1 hv.1 (by omega), ih h.2 hv.2.2.2 (by omega), hoff, hbk]

/-- `get_tree_end_offset` from the start of an image gives its end, and takes no more rounds than the
image has bytes. -/
theorem getTreeEndOffsetLoop_eq {t : Tree} {off up fuel : ℕ} (h : TreeAt b.head off up t) (hne : t ≠ .nil)
    (hv : t.Valid NameOk) (hfit : off + treeSize t ≤ b.tail) (hfuel : treeSize t ≤ fuel) :
    b.getTreeEndOffsetLoop fuel off 0 = off + treeSize t := by
  -- on the size: the last directory with kids has a smaller image
  induction hs : treeSize t using Nat.strong_induction_on generalizing t off up fuel with
  | _ s ih =>
    have hsize := treeSize_of_ne_nil hne
    have hnames := length_names_le t
    obtain ⟨hent, hup⟩ := h.1 hne
    obtain ⟨fuel, rfl⟩ : ∃ k, fuel = k + 1 + t.names.length :=
      ⟨fuel - t.names.length - 1, by omega⟩
    rw [getTreeEndOffsetLoop_entries hb _ hent hv (by omega), getTreeEndOffsetLoop,
      if_pos (by omega), get_of_up hup, if_neg (by simp)]
    by_cases hbelow : belowSize t = 0
    · rw [lastRun_of_belowSize_eq_zero _ _ hbelow, if_neg (by simp)]
      omega
    · obtain ⟨l, n, k, r, rfl, hk, hr, hlast⟩ :=
        exists_lastRun (off + entriesSize t + 5 + 0) 0 hbelow
      simp only [belowSize_append, belowSize_node, hr] at hsize
      have hkids := ((belowAt_append _ _ _ _).mp h.2).2
      rw [runSize_of_ne_nil hne] at hkids
      have hkv := ((valid_append _ _).mp hv).2.1.2.2.1
      rw [hlast, if_pos (by omega)]
      have hk' : TreeAt b.head (off + entriesSize (l ++ node n k r) + 5 + 0 + belowSize l)
          (n.length + 11 + entriesSize r + (0 + belowSize l) + entriesSize k) k :=
        ⟨hkids.1, hkids.2.1⟩
      rw [ih (treeSize k) (by omega) hk' hk hkv (by omega) (by omega) rfl]
      omega

theorem getTreeEndOffset_eq {t : Tree} {off up : ℕ} (h : TreeAt b.head off up t) (hne : t ≠ .nil)
    (hv : t.Valid NameOk) (hfit : off + treeSize t ≤ b.tail) :
    b.getTreeEndOffset off = off + treeSize t :=
  getTreeEndOffsetLoop_eq hb h hne hv hfit (le_loopFuel (by omega))

omit hb

/-! ## Up to the root -/

/-- The parent tag of a listing leads from the end of its run to its owner. -/
theorem subU32_upRel {base e : ℕ} (f : Frame Bytes) (c : List (Frame Bytes))
    (h : runPos base (f :: c) + e < 2 ^ 30) :
    subU32 (runPos base (f :: c) + e + 1) (upRel base e (f :: c)) = ownerPos base f c := by
  have : ownerPos base f c ≤ runPos base (f :: c) := by
    rw [ownerPos, runPos, frameSize]; omega
  rw [upRel, subU32_of_le (by omega) (by omega)]
  omega

/-- The directory that owns the listing of a context, 0 for the root. -/
def ownerOff (base : ℕ) : List (Frame Bytes) → ℕ
  | [] => 0
  | f :: c => ownerPos base f c

@[simp] theorem ownerOff_nil (base : ℕ) : ownerOff base [] = 0 := rfl

@[simp] theorem ownerOff_cons (base : ℕ) (f : Frame Bytes) (c : List (Frame Bytes)) :
    ownerOff base (f :: c) = ownerPos base f c := rfl

/-- `get_parent_offset` from anywhere in a run. -/
theorem getParentOffset_eq (hb : b.Sized) {base off d e : ℕ} {c : List (Frame Bytes)} {r : Tree}
    (hr : EntriesAt b.head off d r) (hv : r.Valid NameOk)
    (hup : UpAt b.head (off + entriesSize r) (upRel base e c))
    (hoff : off + entriesSize r = runPos base c + e) (hbase : 0 < base)
    (hfit : off + entriesSize r < b.tail) : b.getParentOffset off = ownerOff base c := by
  have hmax := hb.tail_le_max
  have hle := base_le_runPos base c
  have htail := getFolderTailOffset_eq hb hr hup.1 hv hfit
  rw [getParentOffset, htail, if_neg (by omega)]
  cases c with
  | nil => rw [getReloffByTag_of_up hup (by simp [upRel])]; rfl
  | cons f c =>
    have hsize := frameSize_eq f
    have hrun := runPos_cons base f c
    have hrel : upRel base e (f :: c) = runPos base (f :: c) + e + 1 - ownerPos base f c := rfl
    have howner : ownerPos base f c = runPos base c + entriesSize f.left := rfl
    have hle' := base_le_runPos base c
    rw [getReloffByTag_of_up hup (by omega)]
    rw [if_neg (by omega), hoff, subU32_upRel f c (by omega)]
    rfl

/-- `get_kids_offset` of the directory that owns a listing. -/
theorem getKidsOffset_owner (hb : b.Sized) {base s s' : ℕ} {f : Frame Bytes}
    {c : List (Frame Bytes)} {t : Tree} {z : Bool} (h : LevelAt b.head base f c z s s')
    (hv : (f.left ++ node f.name t f.right).Valid NameOk) (hfit : runPos base (f :: c) ≤ b.tail) :
    b.getKidsOffset (ownerPos base f c) = if z then runPos base (f :: c) else 0 := by
  have hcap := hb.tail_le
  have hmax := hb.tail_le_max
  have hsize := frameSize_eq f
  have hrun := runPos_cons base f c
  have howner : ownerPos base f c = runPos base c + entriesSize f.left := rfl
  have hn := ((valid_append _ _).mp hv).2.1.1
  rw [getKidsOffset_of_dir h.owner hn (by omega) (by split <;> omega)]
  cases z with
  | false => simp
  | true =>
    simp only [if_true]
    rw [if_neg (by omega)]
    omega

/-- `get_1st_sibling_offset` from anywhere in a run. -/
theorem get1stSiblingOffset_eq (hb : b.Sized) {off d e s s' : ℕ} {c : List (Frame Bytes)}
    {r t : Tree} (hctx : ContextAt b.head b.firstNameOff c true s s')
    (hvc : (plug c t).Valid NameOk) (hr : EntriesAt b.head off d r) (hv : r.Valid NameOk)
    (hup : UpAt b.head (off + entriesSize r) (upRel b.firstNameOff e c))
    (hoff : off + entriesSize r = runPos b.firstNameOff c + e) (hbase : 0 < b.firstNameOff)
    (hpos : runPos b.firstNameOff c ≤ off) (hfit : off + entriesSize r < b.tail) :
    b.get1stSiblingOffset off = runPos b.firstNameOff c := by
  rw [get1stSiblingOffset, getParentOffset_eq hb hr hv hup hoff hbase hfit]
  cases c with
  | nil => rfl
  | cons f c =>
    have howner : ownerPos b.firstNameOff f c = runPos b.firstNameOff c + entriesSize f.left := rfl
    have hle' := base_le_runPos b.firstNameOff c
    rw [ownerOff_cons, if_neg (by omega), getKidsOffset_owner hb hctx.1 (Valid.of_plug (c := c) hvc) (by omega)]
    rfl

/-- One level of `get_insert_offset`: the later siblings of the directory at hand. -/
theorem getInsertOffsetLoop_level (hb : b.Sized) {base : ℕ} {f : Frame Bytes}
    {c : List (Frame Bytes)} {t : Tree} {z : Bool} {s : ℕ} (h : LevelAt b.head base f c z s s)
    (hv : (f.left ++ node f.name t f.right).Valid NameOk)
    (hfit : runPos base c + wrapSize f s ≤ b.tail) (fuel : ℕ) :
    b.getInsertOffsetLoop (fuel + f.right.names.length + 1) (ownerPos base f c)
        (ownerPos base f c) =
      if belowSize f.right ≠ 0 then some (runPos base (f :: c) + s)
      else b.getInsertOffsetLoop fuel (ownerPos base f c) (runPos base c + frameSize f) := by
  have hcap := hb.tail_le
  have hpos := runPos_cons base f c
  have hsize := frameSize_eq f
  have howner : ownerPos base f c = runPos base c + entriesSize f.left := rfl
  have hwrap := runPos_add_wrapSize base f c s
  have hn := ((valid_append _ _).mp hv).2.1
  have hne := get_ne_zero_of_holds h.owner hn.1
  have hrun : ownerPos base f c + f.name.length + 5 + entriesSize f.right + 5 +
      (belowSize f.left + s) = runPos base (f :: c) + s := by omega
  have hend : ownerPos base f c + f.name.length + 5 + entriesSize f.right =
      runPos base c + frameSize f := by omega
  rw [getInsertOffsetLoop, if_pos (by omega), if_neg hne, if_neg (by simp),
    nextName_of_dir h.owner hn.1 (by omega),
    getInsertOffsetLoop_entries hb fuel h.right hn.2.2.2 (by omega) (by omega), hrun, hend]

/-- `get_insert_offset` from the directory that owns a listing, on its way up: the run that comes
next in the image stands at the end of the listing's image. -/
theorem getInsertOffsetLoop_climb (hb : b.Sized) {base : ℕ} (f : Frame Bytes)
    (c : List (Frame Bytes)) {t : Tree} {z : Bool} {s fuel : ℕ}
    (hctx : ContextAt b.head base (f :: c) z s s) (hv : (plug (f :: c) t).Valid NameOk)
    (hbase : 0 < base) (hfit : base + plugSize (f :: c) s = b.tail)
    (hfuel : runPos base (f :: c) ≤ fuel) :
    b.getInsertOffsetLoop fuel (ownerPos base f c) (ownerPos base f c) =
      some (runPos base (f :: c) + s) := by
  have hmax := hb.tail_le_max
  induction c generalizing f t z s fuel with
  | nil =>
    have hpos : runPos base [] = base := rfl
    have hnames := length_names_le f.right
    have hsize := frameSize_eq f
    have hrun := runPos_cons base f []
    have hwrap := runPos_add_wrapSize base f [] s
    rw [plugSize, plugSize, ← hpos] at hfit
    obtain ⟨fuel, rfl⟩ : ∃ k, fuel = k + 1 + f.right.names.length + 1 :=
      ⟨fuel - f.right.names.length - 2, by omega⟩
    rw [getInsertOffsetLoop_level hb hctx.1 hv (by omega)]
    by_cases hright : belowSize f.right = 0
    · rw [if_neg (by omega), getInsertOffsetLoop, if_pos (by omega), if_pos hctx.1.up.1,
        getReloffByTag_of_up hctx.1.up (by simp [upRel]), upRel, if_pos rfl]
      congr 1
      omega
    · rw [if_pos hright]
  | cons g c ih =>
    have hle := base_le_runPos base c
    have hnames := length_names_le f.right
    have hsize := frameSize_eq f
    have hsize' := frameSize_eq g
    have hrun := runPos_cons base f (g :: c)
    have hrun' := runPos_cons base g c
    have hwrap := runPos_add_wrapSize base f (g :: c) s
    have howner : ownerPos base g c = runPos base c + entriesSize g.left := rfl
    have hrel : upRel base (frameSize f) (g :: c) =
        runPos base (g :: c) + frameSize f + 1 - ownerPos base g c := rfl
    rw [plugSize] at hfit
    have hout := runPos_add_le base (g :: c) (wrapSize f s)
    obtain ⟨fuel, rfl⟩ : ∃ k, fuel = k + 1 + f.right.names.length + 1 :=
      ⟨fuel - f.right.names.length - 2, by omega⟩
    rw [getInsertOffsetLoop_level hb hctx.1 (Valid.of_plug (c := g :: c) hv) (by omega)]
    by_cases hright : belowSize f.right = 0
    · rw [if_neg (by omega), getInsertOffsetLoop, if_pos (by omega), if_pos hctx.1.up.1,
        getReloffByTag_of_up hctx.1.up (by omega)]
      simp only
      rw [if_neg (by omega), subU32_upRel g c (by omega),
        ih g (t := f.left ++ node f.name t f.right) hctx.2 hv hfit (by omega)]
      congr 1
      omega
    · rw [if_pos hright]

/-- `get_insert_offset`: where the kids of a folder without any belong. -/
theorem getInsertOffset_eq (hb : b.Sized) {base : ℕ} (f : Frame Bytes) (c : List (Frame Bytes))
    {t : Tree} {z : Bool} (hctx : ContextAt b.head base (f :: c) z 0 0)
    (hv : (plug (f :: c) t).Valid NameOk) (hbase : 0 < base)
    (hfit : base + plugSize (f :: c) 0 = b.tail) :
    b.getInsertOffset (ownerPos base f c) = some (runPos base (f :: c)) := by
  have hout := runPos_add_le base (f :: c) 0
  rw [getInsertOffset]
  simpa using getInsertOffsetLoop_climb hb f c hctx hv hbase hfit (le_loopFuel (by omega))

end FsBuf

end DeepinAnything
