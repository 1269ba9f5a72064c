import DeepinAnything.FsBuf.Exact

/-!
# Offset repair

`update_offsets` runs over an image whose bytes already stand where they belong, while the offsets
that span the place of the edit are still those from before. Over a run it turns the image of
siblings for `d` into their image for `d + delta` (`shift_entries`); climbing to the root it does
so for the later siblings of every ancestor (`updateParentsLoop_climb`). All its arithmetic is exact
on the way.
-/

namespace DeepinAnything

open ByteMem OrderedForest OrderedForest.Forest

namespace FsBuf

variable {b : FsBuf}

/-! ## Writing tags -/

theorem tagBytes_eq {rel : ℕ} (h : rel < 2 ^ 30) : tagBytes rel = le32 (4 * rel + fsTagDir) := by
  have : u32 (rel * 2 ^ fsTagBits) = 4 * rel := by
    rw [u32_of_lt (by simp only [fsTagBits]; omega)]
    simp only [fsTagBits]
    omega
  rw [tagBytes, this]

/-- The bytes of a tag read back as the relative offset they were made for, and as a directory's. -/
theorem tagExact_of_holds {b' : FsBuf} {tagOff rel : ℕ} (hrel : rel < 2 ^ 30) (hin : tagOff + 4 ≤ b.capacity)
    (h : b'.head.Holds tagOff (le32 (4 * rel + fsTagDir))) : TagExact b b' tagOff rel := by
  refine ⟨hrel, hin, getReloffByTag_of_holds h hrel, ?_⟩
  rw [Mem.load32_of_holds h (by simp only [fsTagDir]; omega)]
  simp only [fsTagMask, fsTagBits, fsTagDir]
  omega

theorem kidsRel_eq {tagOff kids rel : ℕ} (hkids : kids = if rel = 0 then 0 else tagOff + rel)
    (hle : tagOff + rel ≤ 2 ^ 30) : (if kids ≠ 0 then subU32 kids tagOff else kids) = rel := by
  subst hkids
  by_cases h : rel = 0
  · simp [h]
  · have h0 : tagOff + rel ≠ 0 := by omega
    simp only [h, if_false, h0, ne_eq, not_false_eq_true, if_true]
    rw [subU32_of_le (by omega) (by omega)]
    omega

/-- `do_set_kids_off` writes the distance from the tag. -/
theorem doSetKidsOff_eq {off kids rel : ℕ} {n : Bytes} (hn : b.strAt off = n)
    (hkids : kids = if rel = 0 then 0 else off + n.length + 1 + rel)
    (hle : off + n.length + 1 + rel ≤ 2 ^ 30) :
    b.doSetKidsOff off kids =
      { b with head := b.head.store (off + n.length + 1) (le32 (4 * rel + fsTagDir)) } := by
  simp only [doSetKidsOff, strlen, hn, kidsRel_eq hkids hle, tagBytes_eq (show rel < 2 ^ 30 by omega)]

theorem setKidsOffExact {off kids rel : ℕ} {n : Bytes} (hn : b.strAt off = n)
    (hkids : kids = if rel = 0 then 0 else off + n.length + 1 + rel)
    (hle : off + n.length + 1 + rel ≤ 2 ^ 30) (hin : off + n.length + 5 ≤ b.capacity) :
    b.SetKidsOffExact off kids := by
  rw [SetKidsOffExact, doSetKidsOff_eq hn hkids hle]
  simp only [strlen, hn, kidsRel_eq hkids hle]
  refine ⟨fun h0 => diffExact_of_le ?_ ?_, tagExact_of_holds (by omega) (by omega) (Mem.holds_store _ _)⟩
  · split at hkids <;> omega
  · split at hkids <;> omega

theorem parentRel_eq {off parent rel : ℕ} (hparent : parent = if rel = 0 then 0 else off + 1 - rel)
    (hle : rel ≤ off) (hlt : off < 2 ^ 30) :
    (if parent > 0 then subU32 (off + 1) parent else parent) = rel := by
  subst hparent
  by_cases h : rel = 0
  · simp [h]
  · have h0 : off + 1 - rel > 0 := by omega
    simp only [h, if_false, h0, if_true]
    rw [subU32_of_le (by omega) (by omega)]
    omega

/-- `set_parent_offset` writes the distance from the tag back to the directory. -/
theorem setParentOffset_eq {off parent : ℕ} (rel : ℕ)
    (hparent : parent = if rel = 0 then 0 else off + 1 - rel) (hle : rel ≤ off) (hlt : off < 2 ^ 30) :
    b.setParentOffset off parent =
      { b with head := b.head.store off (0 :: le32 (4 * rel + fsTagDir)) } := by
  have hstore := Mem.store_append (m := b.head) off [0] (le32 (4 * rel + fsTagDir))
  simp only [List.length_cons, List.length_nil, Nat.zero_add, List.cons_append, List.nil_append]
    at hstore
  rw [setParentOffset, parentRel_eq hparent hle hlt, tagBytes_eq (show rel < 2 ^ 30 by omega), hstore]

theorem setParentOffsetExact {off parent : ℕ} (rel : ℕ)
    (hparent : parent = if rel = 0 then 0 else off + 1 - rel) (hle : rel ≤ off) (hlt : off < 2 ^ 30)
    (hin : off + 5 ≤ b.capacity) : b.SetParentOffsetExact off parent := by
  rw [SetParentOffsetExact, setParentOffset_eq rel hparent hle hlt]
  simp only [parentRel_eq hparent hle hlt]
  refine ⟨fun h0 => diffExact_of_le ?_ (by omega), tagExact_of_holds (by omega) (by omega)
    (Mem.holds_store off (0 :: le32 (4 * rel + fsTagDir))).2⟩
  split at hparent <;> omega

end FsBuf

theorem DirAt.store_tag {m : Mem} {off rel : ℕ} {n : Bytes} (h : DirAt m off n rel) (rel' : ℕ) :
    DirAt (m.store (off + n.length + 1) (le32 (4 * rel' + fsTagDir))) off n rel' := by
  have hname := (Mem.holds_append off n _).mp h
  refine (Mem.holds_append off n _).mpr ⟨hname.1.congr fun i hi => ?_, ?_, Mem.holds_store _ _⟩
  · exact Mem.store_get_of_not_mem (by omega)
  · rw [Mem.store_get_of_not_mem (by omega)]
    exact hname.2.1

theorem UpAt.store (m : Mem) (off rel : ℕ) :
    UpAt (m.store off (0 :: le32 (4 * rel + fsTagDir))) off rel :=
  Mem.holds_store _ _

theorem SameBytes.store {m : Mem} {off n p : ℕ} {bs : Bytes} (h : off + n ≤ p ∨ p + bs.length ≤ off) :
    SameBytes m (m.store p bs) off off n :=
  fun i hi => Mem.store_get_of_not_mem (by omega)

theorem SameBytes.trans {m₁ m₂ m₃ : Mem} {off₁ off₂ off₃ n : ℕ} (h : SameBytes m₁ m₂ off₁ off₂ n)
    (h' : SameBytes m₂ m₃ off₂ off₃ n) : SameBytes m₁ m₃ off₁ off₃ n :=
  fun i hi => (h' i hi).trans (h i hi)

namespace FsBuf

variable {b : FsBuf}

/-- The distance that the parent tag at the end of a run stands for. -/
theorem ownerPos_eq_sub {base off e : ℕ} {f : Frame Bytes} {c : List (Frame Bytes)}
    (hoff : off = runPos base (f :: c) + e) (hbase : 0 < base) :
    ownerPos base f c = (if upRel base e (f :: c) = 0 then 0 else off + 1 - upRel base e (f :: c)) ∧
      upRel base e (f :: c) ≤ off := by
  have hle := base_le_runPos base c
  have hrun := runPos_cons base f c
  have hsize := frameSize_eq f
  have hrel : upRel base e (f :: c) = runPos base (f :: c) + e + 1 - ownerPos base f c := rfl
  have howner : ownerPos base f c = runPos base c + entriesSize f.left := rfl
  refine ⟨?_, by omega⟩
  rw [if_neg (by omega)]
  omega

/-- `set_parent_offset` at the end of a run, with the directory that owns the listing. -/
theorem setParentOffset_owner (base : ℕ) {off e : ℕ} {f : Frame Bytes} {c : List (Frame Bytes)}
    (hoff : off = runPos base (f :: c) + e) (hbase : 0 < base) (hlt : off < 2 ^ 30) :
    ∃ m', b.setParentOffset off (ownerPos base f c) = { b with head := m' } ∧
      UpAt m' off (upRel base e (f :: c)) ∧
      ∀ i, i < off ∨ off + 5 ≤ i → m'.get i = b.head.get i := by
  obtain ⟨hparent, hrel⟩ := ownerPos_eq_sub hoff hbase
  exact ⟨_, setParentOffset_eq (upRel base e (f :: c)) hparent hrel hlt, UpAt.store _ _ _,
    fun i hi => Mem.store_get_of_not_mem (by simpa using hi)⟩

theorem setParentOffsetExact_owner (base : ℕ) {off e : ℕ} {f : Frame Bytes} {c : List (Frame Bytes)}
    (hoff : off = runPos base (f :: c) + e) (hbase : 0 < base) (hlt : off < 2 ^ 30)
    (hin : off + 5 ≤ b.capacity) : b.SetParentOffsetExact off (ownerPos base f c) := by
  obtain ⟨hparent, hrel⟩ := ownerPos_eq_sub hoff hbase
  exact setParentOffsetExact _ hparent hrel hlt hin

/-- The distance that the kids offset of the directory that owns a listing stands for, `z` telling whether
the directory gets one. -/
theorem runPos_eq_add {base kids : ℕ} {f : Frame Bytes} {c : List (Frame Bytes)} {z : Bool} {rel : ℕ}
    (hkids : kids = if z then runPos base (f :: c) else 0) (hlt : runPos base (f :: c) < 2 ^ 30)
    (hrel : rel = if z then 9 + entriesSize f.right + belowSize f.left else 0) :
    kids = (if rel = 0 then 0 else ownerPos base f c + f.name.length + 1 + rel) ∧
      ownerPos base f c + f.name.length + 1 + rel ≤ 2 ^ 30 := by
  have hrun := runPos_cons base f c
  have hsize := frameSize_eq f
  have howner : ownerPos base f c = runPos base c + entriesSize f.left := rfl
  cases z with
  | false => simp_all; omega
  | true =>
    simp only [if_true] at hkids hrel
    rw [if_neg (by omega)]
    omega

/-- `do_set_kids_off` on the directory that owns a listing. -/
theorem doSetKidsOff_owner {base s s' : ℕ} (kids : ℕ) {f : Frame Bytes} {c : List (Frame Bytes)}
    {z : Bool} (h : ContextAt b.head base (f :: c) z s s') (hn : NameOk f.name) (z' : Bool)
    (hkids : kids = if z' then runPos base (f :: c) else 0)
    (hcap : runPos base (f :: c) ≤ b.capacity) (hlt : runPos base (f :: c) < 2 ^ 30) :
    ∃ m', b.doSetKidsOff (ownerPos base f c) kids = { b with head := m' } ∧
      ContextAt m' base (f :: c) z' s s' ∧
      ∀ i, (i < ownerPos base f c ∨ ownerPos base f c + f.name.length + 5 ≤ i) →
        m'.get i = b.head.get i := by
  have hle := base_le_runPos base c
  have hrun := runPos_cons base f c
  have hsize := frameSize_eq f
  have hwrap := runPos_add_wrapSize base f c s
  have howner : ownerPos base f c = runPos base c + entriesSize f.left := rfl
  have hset : b.doSetKidsOff (ownerPos base f c) kids = { b with
      head := b.head.store (ownerPos base f c + f.name.length + 1)
        (le32 (4 * (if z' then 9 + entriesSize f.right + belowSize f.left else 0) + fsTagDir)) } := by
    obtain ⟨hkids', hle'⟩ := runPos_eq_add hkids hlt rfl
    exact doSetKidsOff_eq (strAt_of_dir h.1.owner hn (by omega)) hkids' hle'
  have hsame : ∀ {a n : ℕ} {bs : Bytes}, bs.length = 4 →
      a + n ≤ ownerPos base f c + f.name.length + 1 ∨ ownerPos base f c + f.name.length + 5 ≤ a →
      SameBytes b.head (b.head.store (ownerPos base f c + f.name.length + 1) bs) a a n := by
    intro a n bs hbs hd
    exact SameBytes.store (by omega)
  refine ⟨_, hset, ⟨⟨h.1.left.congr (hsame rfl (by omega)), h.1.owner.store_tag _,
    h.1.right.congr (hsame rfl (by omega)), h.1.up.congr (hsame rfl (by omega)),
    h.1.belowLeft.congr (hsame rfl (by omega)), h.1.belowRight.congr (hsame rfl (by omega))⟩,
    h.2.congr (hsame rfl (by omega)) (hsame rfl (by omega)) (n := plugSize c (wrapSize f s)) (by omega)⟩,
    fun i hi => Mem.store_get_of_not_mem ?_⟩
  rw [length_le32]
  omega

theorem setKidsOffExact_owner {base s s' : ℕ} (kids : ℕ) {f : Frame Bytes} {c : List (Frame Bytes)}
    {z : Bool} (h : ContextAt b.head base (f :: c) z s s') (hn : NameOk f.name) (z' : Bool)
    (hkids : kids = if z' then runPos base (f :: c) else 0)
    (hcap : runPos base (f :: c) ≤ b.capacity) (hlt : runPos base (f :: c) < 2 ^ 30) :
    b.SetKidsOffExact (ownerPos base f c) kids := by
  have hrun := runPos_cons base f c
  have hsize := frameSize_eq f
  have howner : ownerPos base f c = runPos base c + entriesSize f.left := rfl
  obtain ⟨hkids', hle'⟩ := runPos_eq_add hkids hlt rfl
  exact setKidsOffExact (strAt_of_dir h.1.owner hn (by omega)) hkids' hle' (by omega)

/-- `UPDATE_KIDS_OFF` on an entry without kids. -/
theorem updateKidsOffExact_of_eq_zero (hb : b.Sized) {a : ℕ} (h : b.getKidsOffset a = 0) (ha : a ≤ b.capacity)
    (delta : ℤ) : b.UpdateKidsOffExact a delta :=
  ⟨hb.kidsOffsetExact ha, fun h0 => absurd h h0⟩

/-- `UPDATE_KIDS_OFF` on a directory whose run has moved to `bk`: its tag and the parent tag of
the run are written anew. -/
theorem updateKidsOff_of_dir (hb : b.Sized) {a rel : ℕ} (rel' : ℕ) (delta : ℤ) {bk : ℕ} {n : Bytes}
    {k : Tree} (h : DirAt b.head a n rel) (hn : NameOk n) (hrel : rel ≠ 0) (hdelta : (rel : ℤ) + delta = rel')
    (hbk : bk = a + n.length + 1 + rel') (hroom : 4 ≤ rel')
    (hrun : EntriesAt b.head bk 0 k) (hup : b.head.get (bk + entriesSize k) = 0)
    (hk : k.Valid NameOk) (hfit : bk + entriesSize k + 5 ≤ b.tail)
    (hold : a + n.length + 1 + rel ≤ 2 ^ 30) (hpos : 0 < a) :
    b.updateKidsOff a delta =
        { b with
          head := (b.head.store (a + n.length + 1) (le32 (4 * rel' + fsTagDir))).store
            (bk + entriesSize k) (0 :: le32 (4 * (bk + entriesSize k + 1 - a) + fsTagDir)) } ∧
      b.UpdateKidsOffExact a delta := by
  have hcap := hb.tail_le
  have hmax := hb.tail_le_max
  have hkids : b.getKidsOffset a = a + n.length + 1 + rel := by
    rw [getKidsOffset_of_dir h hn (by omega) hold, if_neg hrel]
  have hmoved : MovedExact (a + n.length + 1 + rel) delta := movedExact_of_nonneg (by omega) (by omega)
  have hadd : addDelta (a + n.length + 1 + rel) delta = bk := by
    rw [MovedExact] at hmoved
    omega
  have hstr : b.strAt a = n := strAt_of_dir h hn (by omega)
  have hbk' : bk = if rel' = 0 then 0 else a + n.length + 1 + rel' := by rw [if_neg (by omega)]; exact hbk
  have hset : b.doSetKidsOff a bk =
      { b with head := b.head.store (a + n.length + 1) (le32 (4 * rel' + fsTagDir)) } :=
    doSetKidsOff_eq hstr hbk' (by omega)
  have htail : ({ b with head := b.head.store (a + n.length + 1) (le32 (4 * rel' + fsTagDir)) } :
      FsBuf).getFolderTailOffset bk = bk + entriesSize k := by
    refine getFolderTailOffset_eq (hb.with_head _) (d := 0) (hrun.congr (SameBytes.store ?_)) ?_ hk
      (by simp only; omega)
    · right; simp; omega
    · simp only
      rw [Mem.store_get_of_not_mem (by simp; omega)]
      exact hup
  have hup' : a = if bk + entriesSize k + 1 - a = 0 then 0
      else bk + entriesSize k + 1 - (bk + entriesSize k + 1 - a) := by
    rw [if_neg (by omega)]; omega
  constructor
  · rw [updateKidsOff, hkids]
    simp only [show ¬ a + n.length + 1 + rel = 0 by omega, if_false, hadd, hset, htail]
    rw [setParentOffset_eq _ hup' (by omega) (by omega)]
  · refine ⟨hb.kidsOffsetExact (by omega), fun _ => ?_⟩
    rw [hkids, hadd]
    simp only [hset, htail]
    exact ⟨hmoved, setKidsOffExact hstr hbk' (by omega) (by omega), (hb.with_head _).readsExact,
      setParentOffsetExact _ hup' (by omega) (by omega) (by simp only; omega)⟩

/-! ## Along a run -/

/-- Between `m` and `m'` the siblings `t` with entries at `a` and the runs below them at `bk` have
got their image for `d`, and nothing else has changed. -/
structure Shifted (m m' : Mem) (a bk d : ℕ) (t : Tree) : Prop where
  entries : EntriesAt m' a d t
  below : BelowAt m' bk d t
  frame : ∀ i, (i < a ∨ a + entriesSize t ≤ i) → (i < bk ∨ bk + belowSize t ≤ i) →
    m'.get i = m.get i

theorem Shifted.same {m m' : Mem} {a bk d : ℕ} {t : Tree} (h : Shifted m m' a bk d t) {off n : ℕ}
    (ha : off + n ≤ a ∨ a + entriesSize t ≤ off) (hbk : off + n ≤ bk ∨ bk + belowSize t ≤ off) :
    SameBytes m m' off off n :=
  fun i hi => h.frame (off + i) (by omega) (by omega)

/-- The first loop of `update_offsets` comes to a state in exact arithmetic. -/
structure SiblingsLead (startOff : ℕ) (delta : ℤ) (fuel : ℕ) (b : FsBuf) (off fuel' : ℕ) (b' : FsBuf)
    (off' : ℕ) : Prop where
  loop_eq : updateSiblingsLoop startOff delta fuel b off = updateSiblingsLoop startOff delta fuel' b' off'
  of_rest : UpdateSiblingsExact startOff delta fuel' b' off' → UpdateSiblingsExact startOff delta fuel b off

theorem SiblingsLead.trans {startOff fuel fuel' fuel'' off off' off'' : ℕ} {delta : ℤ} {b b' b'' : FsBuf}
    (h : SiblingsLead startOff delta fuel b off fuel' b' off')
    (h' : SiblingsLead startOff delta fuel' b' off' fuel'' b'' off'') :
    SiblingsLead startOff delta fuel b off fuel'' b'' off'' :=
  ⟨h.loop_eq.trans h'.loop_eq, h.of_rest ∘ h'.of_rest⟩

/-- One round of the first loop. -/
theorem siblingsLead_entry {startOff off off' : ℕ} {delta : ℤ} {b' : FsBuf} (hlt : off < startOff)
    (hkids : b.updateKidsOff off delta = b') (hexact : b.UpdateKidsOffExact off delta)
    (hnext : b'.nextName off = off') (hnext' : b'.NextNameExact off) (fuel : ℕ) :
    SiblingsLead startOff delta (fuel + 1) b off fuel b' off' := by
  subst hkids hnext
  exact ⟨by rw [updateSiblingsLoop, if_pos hlt], fun h _ => ⟨hexact, hnext', h⟩⟩

/-- The second loop of `update_offsets` comes to a state in exact arithmetic. -/
structure ParentsLead (delta : ℤ) (fuel : ℕ) (b : FsBuf) (startOff off fuel' : ℕ) (b' : FsBuf)
    (startOff' off' : ℕ) : Prop where
  loop_eq : updateParentsLoop delta fuel b startOff off = updateParentsLoop delta fuel' b' startOff' off'
  of_rest : UpdateParentsExact delta fuel' b' startOff' off' → UpdateParentsExact delta fuel b startOff off

theorem ParentsLead.trans {fuel fuel' fuel'' s s' s'' off off' off'' : ℕ} {delta : ℤ} {b b' b'' : FsBuf}
    (h : ParentsLead delta fuel b s off fuel' b' s' off')
    (h' : ParentsLead delta fuel' b' s' off' fuel'' b'' s'' off'') :
    ParentsLead delta fuel b s off fuel'' b'' s'' off'' :=
  ⟨h.loop_eq.trans h'.loop_eq, h.of_rest ∘ h'.of_rest⟩

/-- One round of the second loop, at an entry behind `startOff`. -/
theorem parentsLead_entry {startOff off off' : ℕ} {delta : ℤ} {b' : FsBuf} (hlt : startOff < off)
    (htail : off < b.tail) (hne : b.head.get off ≠ 0) (hkids : b.updateKidsOff off delta = b')
    (hexact : b.UpdateKidsOffExact off delta) (hnext : b'.nextName off = off')
    (hnext' : b'.NextNameExact off) (fuel : ℕ) :
    ParentsLead delta (fuel + 1) b startOff off fuel b' startOff off' := by
  subst hkids hnext
  refine ⟨?_, fun h _ => ?_⟩
  · rw [updateParentsLoop, if_pos ⟨by omega, htail⟩, if_neg hne]
    simp only [gt_iff_lt, hlt, if_true]
  · rw [if_neg hne]
    simp only [gt_iff_lt, hlt, if_true]
    exact ⟨fun _ => hexact, hnext', h⟩

/-- One round of the second loop, at `startOff` itself. -/
theorem parentsLead_start {off off' : ℕ} {delta : ℤ} (h0 : off ≠ 0) (htail : off < b.tail)
    (hne : b.head.get off ≠ 0) (hnext : b.nextName off = off') (hnext' : b.NextNameExact off) (fuel : ℕ) :
    ParentsLead delta (fuel + 1) b off off fuel b off off' := by
  subst hnext
  refine ⟨?_, fun h _ => ?_⟩
  · rw [updateParentsLoop, if_pos ⟨h0, htail⟩, if_neg hne]
    simp only [gt_iff_lt, lt_irrefl, if_false]
  · rw [if_neg hne]
    simp only [gt_iff_lt, lt_irrefl, if_false]
    exact ⟨fun h => h.elim, hnext', h⟩

/-- One round of the second loop, at the end of a run below the root. -/
theorem parentsLead_up {delta : ℤ} {off rel parent startOff : ℕ} (h : UpAt b.head off rel)
    (hrel : rel < 2 ^ 30) (hrel0 : rel ≠ 0) (hpos : 0 < off) (hlt : off < b.tail) (htag : b.ParentTagExact off)
    (hparent : subU32 (off + 1) rel = parent) (fuel : ℕ) :
    ParentsLead delta (fuel + 1) b startOff off fuel b parent parent := by
  subst hparent
  have hread := getReloffByTag_of_up h hrel
  refine ⟨?_, fun hrest _ => ?_⟩
  · rw [updateParentsLoop, if_pos ⟨by omega, hlt⟩, if_pos h.1, hread]
    simp only [hrel0, if_false]
  · rw [if_pos h.1, hread]
    exact ⟨htag, fun _ => hrest⟩

/-- The last round of the second loop, at the parent tag of the root. -/
theorem updateParentsLoop_root {delta : ℤ} {off : ℕ} (startOff : ℕ) (h : UpAt b.head off 0) (hpos : 0 < off)
    (hlt : off < b.tail) (htag : b.ParentTagExact off) (fuel : ℕ) :
    updateParentsLoop delta (fuel + 1) b startOff off = some b ∧
      UpdateParentsExact delta (fuel + 1) b startOff off := by
  have hread := getReloffByTag_of_up h (by omega)
  refine ⟨?_, fun _ => ?_⟩
  · rw [updateParentsLoop, if_pos ⟨by omega, hlt⟩, if_pos h.1, hread]
    rfl
  · rw [if_pos h.1, hread]
    exact ⟨htag, fun h0 => absurd rfl h0⟩

/-- What the two loops of `update_offsets` do to the siblings `t`. -/
theorem shift_entries (delta : ℤ) {t : Tree} (hb : b.Sized) {a bk d : ℕ} (d' : ℕ)
    (hent : EntriesAt b.head a d t) (hbelow : BelowAt b.head bk d t) (hv : t.Valid NameOk)
    (hdelta : (d : ℤ) + delta = d') (hbk : bk = a + entriesSize t + 5 + d')
    (hfit : bk + belowSize t ≤ b.tail) (hold : a + entriesSize t + 5 + d + belowSize t ≤ 2 ^ 30)
    (hpos : 0 < a) :
    ∃ m', Shifted b.head m' a bk d' t ∧
      (∀ fuel startOff, a + entriesSize t ≤ startOff →
        SiblingsLead startOff delta (fuel + t.names.length) b a fuel { b with head := m' }
          (a + entriesSize t)) ∧
      (∀ fuel startOff, startOff < a →
        ParentsLead delta (fuel + t.names.length) b startOff a fuel { b with head := m' } startOff
          (a + entriesSize t)) := by
  have hcap := hb.tail_le
  have hmax := hb.tail_le_max
  induction t generalizing b a bk d d' with
  | nil =>
    exact ⟨b.head, ⟨trivial, trivial, fun _ _ _ => rfl⟩, fun _ _ _ => ⟨rfl, id⟩, fun _ _ _ => ⟨rfl, id⟩⟩
  | leaf n r ih =>
    simp only [entriesSize_leaf, belowSize_leaf, names_leaf, List.length_cons] at hbk hfit hold ⊢
    have hne := get_ne_zero_of_holds hent.1 hv.1
    have hkids : b.updateKidsOff a delta = b := by
      simp [updateKidsOff, getKidsOffset_of_file hent.1 hv.1 (by omega)]
    have hexact := updateKidsOffExact_of_eq_zero hb (getKidsOffset_of_file hent.1 hv.1 (by omega))
      (by omega) delta
    have hnext := nextName_of_file hent.1 hv.1 (by omega)
    have hnext' : b.NextNameExact a := hb.nextNameExact (by omega)
    obtain ⟨m', hs, hsib, hpar⟩ := ih hb d' hent.2 hbelow hv.2.2 hdelta (by omega) (by omega)
      (by omega) (by omega) hcap hmax
    have hassoc : a + n.length + 2 + entriesSize r = a + (n.length + 2 + entriesSize r) := by omega
    refine ⟨m', ⟨⟨hent.1.congr (hs.same (by omega) (by omega)), hs.entries⟩, hs.below, ?_⟩, ?_, ?_⟩
    · intro i hi hi'
      exact hs.frame i (by simp at hi; omega) hi'
    · intro fuel startOff hle
      rw [← Nat.add_assoc, ← hassoc]
      exact (siblingsLead_entry (by omega) hkids hexact hnext hnext' _).trans (hsib fuel startOff (by omega))
    · intro fuel startOff hlt
      rw [← Nat.add_assoc, ← hassoc]
      exact (parentsLead_entry hlt (by omega) hne hkids hexact hnext hnext' _).trans
        (hpar fuel startOff (by omega))
  | node n k r _ ih =>
    simp only [entriesSize_node, belowSize_node, names_node, List.length_cons] at hbk hfit hold ⊢
    have hne := get_ne_zero_of_holds hent.1 hv.1
    -- the buffer after the first directory, and what has changed in it
    obtain ⟨m₁, hkids, hexact, hdir, hrun, hframe⟩ : ∃ m₁,
        b.updateKidsOff a delta = { b with head := m₁ } ∧ b.UpdateKidsOffExact a delta ∧
        DirAt m₁ a n (if k = .nil then 0 else 9 + entriesSize r + d') ∧
        RunAt m₁ bk (n.length + 11 + entriesSize r + d' + entriesSize k) k ∧
        ∀ i, (i < a ∨ a + n.length + 5 ≤ i) → (i < bk ∨ bk + runSize k ≤ i) →
          m₁.get i = b.head.get i := by
      by_cases hk : k = .nil
      · subst hk
        have hdir := hent.1
        simp only [if_true] at hdir ⊢
        have hzero : b.getKidsOffset a = 0 := getKidsOffset_of_dir hdir hv.1 (by omega) (by omega)
        refine ⟨b.head, ?_, updateKidsOffExact_of_eq_zero hb hzero (by omega) delta, hdir,
          fun h => absurd rfl h, fun _ _ _ => rfl⟩
        rw [updateKidsOff, hzero]
        simp
      · have hdir := hent.1
        obtain ⟨hrunE, hrunU⟩ := hbelow.1 hk
        have hsize := treeSize_of_ne_nil hk
        simp only [hk, if_false] at hdir ⊢
        obtain ⟨hupdate, hexact⟩ := updateKidsOff_of_dir hb (9 + entriesSize r + d') delta hdir hv.1
          (by omega) (by omega) (by omega) (by omega) hrunE (get_of_up hrunU) hv.2.2.1 (by omega) (by omega) hpos
        refine ⟨_, hupdate, hexact, ?_, ?_, ?_⟩
        · exact (hdir.store_tag _).congr (SameBytes.store (by omega))
        · intro _
          refine ⟨hrunE.congr ((SameBytes.store ?_).trans (SameBytes.store ?_)), ?_⟩
          · simp; omega
          · simp
          · have hrel : n.length + 11 + entriesSize r + d' + entriesSize k =
                bk + entriesSize k + 1 - a := by omega
            rw [hrel]
            exact UpAt.store _ _ _
        · intro i hi hi'
          rw [runSize_of_ne_nil hk] at hi'
          rw [Mem.store_get_of_not_mem (by simp; omega), Mem.store_get_of_not_mem (by simp; omega)]
    have hsize : treeSize k = runSize k + belowSize k := rfl
    have hent₁ : EntriesAt m₁ (a + n.length + 5) (d + treeSize k) r :=
      hent.2.congr fun i hi => hframe _ (by omega) (by omega)
    have hbelow₁ : BelowAt m₁ (bk + treeSize k) (d + treeSize k) r :=
      hbelow.2.2.congr fun i hi => hframe _ (by omega) (by omega)
    have hnext : ({ b with head := m₁ } : FsBuf).nextName a = a + n.length + 5 :=
      nextName_of_dir (b := { b with head := m₁ }) hdir hv.1 (by simp only; omega)
    have hnext' : ({ b with head := m₁ } : FsBuf).NextNameExact a :=
      (hb.with_head m₁).nextNameExact (by simp only; omega)
    obtain ⟨m', hs, hsib, hpar⟩ := ih (hb.with_head m₁) (d' + treeSize k) hent₁ hbelow₁
      hv.2.2.2 (by push_cast; omega) (by omega) (by simp only; omega) (by omega) (by omega) hcap hmax
    have hassoc : a + n.length + 5 + entriesSize r = a + (n.length + 5 + entriesSize r) := by omega
    refine ⟨m', ⟨⟨hdir.congr (hs.same (by omega) (by omega)), hs.entries⟩,
      ⟨hrun.congr (hs.same (by omega) (by omega)), ?_, hs.below⟩, ?_⟩, ?_, ?_⟩
    · refine (hbelow.2.1.congr fun i hi => ?_ : BelowAt m₁ _ 0 k).congr
        (hs.same (by omega) (by omega))
      exact hframe _ (by omega) (by omega)
    · intro i hi hi'
      simp only [entriesSize_node, belowSize_node] at hi hi'
      rw [hs.frame i (by omega) (by omega)]
      exact hframe i (by omega) (by omega)
    · intro fuel startOff hle
      rw [← Nat.add_assoc, ← hassoc]
      exact (siblingsLead_entry (by omega) hkids hexact hnext hnext' _).trans (hsib fuel startOff (by omega))
    · intro fuel startOff hlt
      rw [← Nat.add_assoc, ← hassoc]
      exact (parentsLead_entry hlt (by omega) hne hkids hexact hnext hnext' _).trans
        (hpar fuel startOff (by omega))

/-! ## Up to the root -/

/-- One level of the climb: the later siblings of the directory at hand. -/
theorem updateParentsLoop_level (delta : ℤ) {base : ℕ} (hb : b.Sized) {f : Frame Bytes}
    {c : List (Frame Bytes)} {t : Tree} {z : Bool} {s s' : ℕ} (h : LevelAt b.head base f c z s s')
    (hv : (f.left ++ node f.name t f.right).Valid NameOk) (hdelta : (s' : ℤ) + delta = s)
    (hbase : 0 < base) (hfit : runPos base c + wrapSize f s ≤ b.tail)
    (hold : runPos base c + wrapSize f s' ≤ 2 ^ 30) :
    ∃ m', LevelAt m' base f c z s s ∧
      (∀ i, i < runPos base c ∨ runPos base c + wrapSize f s ≤ i ∨
        (runPos base (f :: c) ≤ i ∧ i < runPos base (f :: c) + s) → m'.get i = b.head.get i) ∧
      ∀ fuel, ParentsLead delta (fuel + f.right.names.length + 1) b (ownerPos base f c) (ownerPos base f c)
        fuel { b with head := m' } (ownerPos base f c) (runPos base c + frameSize f) := by
  have hcap := hb.tail_le
  have hbase' := base_le_runPos base c
  have hpos := runPos_cons base f c
  have hsize := frameSize_eq f
  have howner : ownerPos base f c = runPos base c + entriesSize f.left := rfl
  have hwrap := runPos_add_wrapSize base f c s
  have hwrap' := runPos_add_wrapSize base f c s'
  have hn := ((valid_append _ _).mp hv).2.1
  have hne := get_ne_zero_of_holds h.owner hn.1
  have hnext := nextName_of_dir h.owner hn.1 (by omega)
  obtain ⟨m', hs, -, hloop⟩ := shift_entries delta hb (belowSize f.left + s) h.right
    h.belowRight hn.2.2.2 (by push_cast; omega) (by omega) (by omega) (by omega) (by omega)
  refine ⟨m', ⟨?_, ?_, hs.entries, ?_, ?_, hs.below⟩, ?_, fun fuel => ?_⟩
  · exact h.left.congr (hs.same (by omega) (by omega))
  · exact h.owner.congr (hs.same (by omega) (by omega))
  · exact h.up.congr (hs.same (by omega) (by omega))
  · exact h.belowLeft.congr (hs.same (by omega) (by omega))
  · intro i hi
    exact hs.frame i (by omega) (by omega)
  · have hend : ownerPos base f c + f.name.length + 5 + entriesSize f.right =
        runPos base c + frameSize f := by omega
    rw [← hend]
    exact (parentsLead_start (by omega) (by omega) hne hnext (hb.nextNameExact (by omega)) _).trans
      (hloop fuel _ (by omega))

/-- The climb of `update_offsets`, started at the directory that owns the listing of a context:
all offsets that were computed with the size `s'` of the listing become right for `s`. -/
theorem updateParentsLoop_climb {delta : ℤ} {base : ℕ} (hb : b.Sized) (f : Frame Bytes)
    (c : List (Frame Bytes)) (fuel : ℕ) {t : Tree} {z : Bool} {s s' : ℕ}
    (hctx : ContextAt b.head base (f :: c) z s s') (hv : (plug (f :: c) t).Valid NameOk)
    (hdelta : (s' : ℤ) + delta = s) (hbase : 0 < base) (hfit : base + plugSize (f :: c) s ≤ b.tail)
    (hold : base + plugSize (f :: c) s' ≤ 2 ^ 30) (hfuel : runPos base (f :: c) ≤ fuel) :
    ∃ m', (updateParentsLoop delta fuel b (ownerPos base f c) (ownerPos base f c) =
          some { b with head := m' } ∧
        UpdateParentsExact delta fuel b (ownerPos base f c) (ownerPos base f c)) ∧
      ContextAt m' base (f :: c) z s s ∧
      ∀ i, i < base ∨ base + plugSize (f :: c) s ≤ i ∨
        (runPos base (f :: c) ≤ i ∧ i < runPos base (f :: c) + s) → m'.get i = b.head.get i := by
  have hmax := hb.tail_le_max
  induction c generalizing b f t z s s' fuel with
  | nil =>
    have hpos : runPos base [] = base := rfl
    have hnames := length_names_le f.right
    have hsize := frameSize_eq f
    have hrun := runPos_cons base f []
    have hwrap := runPos_add_wrapSize base f [] s
    rw [plugSize, plugSize, ← hpos] at hfit hold
    obtain ⟨m', hlevel, hframe, hloop⟩ :=
      updateParentsLoop_level delta hb hctx.1 hv hdelta hbase hfit hold
    refine ⟨m', ?_, ⟨hlevel, trivial⟩, fun i hi => hframe i hi⟩
    obtain ⟨fuel, rfl⟩ : ∃ k, fuel = k + 1 + f.right.names.length + 1 :=
      ⟨fuel - f.right.names.length - 2, by omega⟩
    have hup : UpAt m' (runPos base [] + frameSize f) 0 := hlevel.up
    have htag : ({ b with head := m' } : FsBuf).ParentTagExact (runPos base [] + frameSize f) :=
      parentTagExact_of_up hlevel.up rfl hbase (by omega)
    obtain ⟨hroot, hroot'⟩ := updateParentsLoop_root (b := { b with head := m' }) (ownerPos base f [])
      hup (by omega) (by simp only; omega) htag fuel
    exact ⟨(hloop _).loop_eq.trans hroot, (hloop _).of_rest hroot'⟩
  | cons g c ih =>
    have hle := base_le_runPos base c
    have hnames := length_names_le f.right
    have hsize := frameSize_eq f
    have hrun := runPos_cons base f (g :: c)
    have hrun' := runPos_cons base g c
    have hwrap := runPos_add_wrapSize base f (g :: c) s
    have hsize' := frameSize_eq g
    have hw := wrapSize_eq f s
    have hw' := wrapSize_eq f s'
    rw [plugSize] at hfit hold
    have hout := runPos_add_le base (g :: c) (wrapSize f s)
    have hout' := runPos_add_le base (g :: c) (wrapSize f s')
    obtain ⟨m₁, hlevel, hframe, hloop⟩ := updateParentsLoop_level delta (t := t) hb hctx.1
      (Valid.of_plug (c := g :: c) hv) hdelta hbase (by omega) (by omega)
    have hctx₁ : ContextAt m₁ base (g :: c) true (wrapSize f s) (wrapSize f s') := by
      refine hctx.2.congr (fun i hi => hframe _ ?_) (fun i hi => hframe _ ?_) (n := b.tail)
        (by omega)
      · omega
      · omega
    obtain ⟨fuel, rfl⟩ : ∃ k, fuel = k + 1 + f.right.names.length + 1 :=
      ⟨fuel - f.right.names.length - 2, by omega⟩
    obtain ⟨m', hclimb, hctx', hframe'⟩ := ih (hb.with_head m₁) g fuel
      (t := f.left ++ node f.name t f.right) hctx₁ hv (by omega) hfit hold
      (by omega) hmax
    have hup : upRel base (frameSize f) (g :: c) ≠ 0 := by
      rw [upRel, ownerPos]; omega
    have htag : ({ b with head := m₁ } : FsBuf).ParentTagExact (runPos base (g :: c) + frameSize f) :=
      parentTagExact_of_up hlevel.up rfl hbase (by omega)
    have hstep := (hloop _).trans (parentsLead_up (b := { b with head := m₁ }) hlevel.up
      (by rw [upRel, ownerPos]; omega) hup (by omega) (by simp only; omega) htag
      (subU32_upRel g c (by omega)) fuel)
    refine ⟨m', ?_, ⟨hlevel.congr (fun i hi => hframe' _ ?_) (fun i hi => hframe' _ ?_), hctx'⟩, ?_⟩
    · exact ⟨hstep.loop_eq.trans hclimb.1, hstep.of_rest hclimb.2⟩
    · omega
    · omega
    · intro i hi
      rw [plugSize] at hi
      rw [hframe' i (by omega), hframe i (by omega)]

/-! ## `update_offsets` -/

theorem updateSiblingsLoop_stop {startOff off : ℕ} (delta : ℤ) (h : ¬ off < startOff) (fuel : ℕ) :
    updateSiblingsLoop startOff delta fuel b off = b ∧ UpdateSiblingsExact startOff delta fuel b off := by
  cases fuel with
  | zero => exact ⟨rfl, trivial⟩
  | succ fuel => exact ⟨by rw [updateSiblingsLoop, if_neg h], fun hlt => absurd hlt h⟩

/-- `update_offsets` from the directory that owns a listing: the listing's image has got the size
`s` instead of `s'`. -/
theorem updateOffsets_owner (delta : ℤ) (hb : b.Sized) {base : ℕ} {f : Frame Bytes} {c : List (Frame Bytes)}
    {t : Tree} {z : Bool} {s s' : ℕ} (hctx : ContextAt b.head base (f :: c) z s s')
    (hv : (plug (f :: c) t).Valid NameOk) (hdelta : (s' : ℤ) + delta = s)
    (hbase : 0 < base) (hfit : base + plugSize (f :: c) s ≤ b.tail)
    (hold : base + plugSize (f :: c) s' ≤ 2 ^ 30) :
    ∃ m', (b.updateOffsets (ownerPos base f c) delta false = some { b with head := m' } ∧
        b.UpdateOffsetsExact (ownerPos base f c) delta false) ∧
      ContextAt m' base (f :: c) z s s ∧
      ∀ i, i < base ∨ base + plugSize (f :: c) s ≤ i ∨
        (runPos base (f :: c) ≤ i ∧ i < runPos base (f :: c) + s) →
        m'.get i = b.head.get i := by
  have hout := runPos_add_le base (f :: c) s
  exact updateParentsLoop_climb hb f c _ hctx hv hdelta hbase hfit hold (le_loopFuel (by omega))

/-- The climb that follows the siblings, from anywhere in the run of a listing. -/
theorem updateParentsLoop_parent {delta : ℤ} (hb : b.Sized) {c : List (Frame Bytes)} {l r : Tree}
    {base off dr s s' : ℕ} (hoff : off = runPos base c + entriesSize l)
    (hctx : ContextAt b.head base c true s s') (hv : (plug c (l ++ r)).Valid NameOk)
    (hr : EntriesAt b.head off dr r)
    (hup : UpAt b.head (off + entriesSize r) (upRel base (entriesSize l + entriesSize r) c))
    (hs : (s' : ℤ) + delta = s) (hin : entriesSize l + entriesSize r + 5 ≤ s) (hbase : 0 < base)
    (hfit : base + plugSize c s ≤ b.tail) (hold : base + plugSize c s' ≤ 2 ^ 30) :
    ∃ m', (updateParentsLoop delta b.loopFuel b (b.getParentOffset off) (b.getParentOffset off) =
          some { b with head := m' } ∧
        UpdateParentsExact delta b.loopFuel b (b.getParentOffset off) (b.getParentOffset off)) ∧
      ContextAt m' base c true s s ∧
      ∀ i, (i < base ∨ base + plugSize c s ≤ i ∨
        (runPos base c ≤ i ∧ i < runPos base c + s)) → m'.get i = b.head.get i := by
  have hout := runPos_add_le base c s
  have hvr := ((valid_append _ _).mp (Valid.of_plug hv)).2.1
  rw [getParentOffset_eq hb hr hvr hup (by omega) hbase (by omega)]
  cases c with
  | nil =>
    exact ⟨b.head, ⟨by simp [loopFuel, updateParentsLoop], fun h => absurd rfl h.1⟩, trivial,
      fun _ _ => rfl⟩
  | cons f c =>
    exact updateParentsLoop_climb hb f c _ hctx hv hs hbase hfit hold (le_loopFuel (by omega))

/-- `update_offsets` with the siblings is its two loops, one after the other. -/
theorem updateOffsets_siblings {b₁ b' : FsBuf} {off first : ℕ} {delta : ℤ} (hb : b.Sized) (hb₁ : b₁.Sized)
    (hfirst : b.get1stSiblingOffset off = first) (hfirst' : b.FirstSiblingExact off) (h0 : first ≠ 0)
    (hsibs : updateSiblingsLoop off delta off b first = b₁ ∧ UpdateSiblingsExact off delta off b first)
    (hparent : b₁.ParentOffsetExact off)
    (hclimb : updateParentsLoop delta b₁.loopFuel b₁ (b₁.getParentOffset off) (b₁.getParentOffset off) = some b' ∧
      UpdateParentsExact delta b₁.loopFuel b₁ (b₁.getParentOffset off) (b₁.getParentOffset off)) :
    b.updateOffsets off delta true = some b' ∧ b.UpdateOffsetsExact off delta true := by
  subst hfirst
  obtain ⟨rfl, hsibs'⟩ := hsibs
  constructor
  · rw [updateOffsets, if_pos rfl]
    simp only [h0, if_false]
    exact hclimb.1
  · rw [UpdateOffsetsExact, if_pos rfl]
    exact ⟨hb.readsExact, hfirst', fun _ => ⟨hsibs', hb₁.readsExact, hparent, hclimb.2⟩⟩

/-- `update_offsets` from the first entry of a listing: the image of the listing has got the size
`s` instead of `s'`. -/
theorem updateOffsets_first (delta : ℤ) (hb : b.Sized) {c : List (Frame Bytes)} {r : Tree}
    {base off dr s s' : ℕ} (hoff : off = runPos base c) (hctx : ContextAt b.head base c true s s')
    (hv : (plug c r).Valid NameOk) (hr : EntriesAt b.head off dr r)
    (hup : UpAt b.head (off + entriesSize r) (upRel base (entriesSize r) c))
    (hs : (s' : ℤ) + delta = s) (hin : entriesSize r + 5 ≤ s) (hfirst : b.firstNameOff = base)
    (hbase : 0 < base) (hfit : base + plugSize c s ≤ b.tail)
    (hold : base + plugSize c s' ≤ 2 ^ 30) :
    ∃ m', (b.updateOffsets off delta true = some { b with head := m' } ∧
        b.UpdateOffsetsExact off delta true) ∧
      ContextAt m' base c true s s ∧
      ∀ i, (i < base ∨ base + plugSize c s ≤ i ∨ (off ≤ i ∧ i < off + s)) →
        m'.get i = b.head.get i := by
  subst hfirst hoff
  have hle := base_le_runPos b.firstNameOff c
  have hout := runPos_add_le b.firstNameOff c s
  have hvr := Valid.of_plug hv
  obtain ⟨m', hclimb, hafter⟩ := updateParentsLoop_parent hb (l := .nil) rfl hctx hv hr (by simpa using hup)
    hs (by simpa using hin) hbase hfit hold
  refine ⟨m', ?_, hafter⟩
  exact updateOffsets_siblings hb hb
    (get1stSiblingOffset_eq hb hctx hv hr hvr hup rfl hbase le_rfl (by omega))
    (firstSiblingExact hb hr hvr hup rfl hbase (by omega)) (by omega)
    (updateSiblingsLoop_stop _ (lt_irrefl _) _) (parentOffsetExact hb hr hvr hup rfl hbase (by omega)) hclimb

/-- `update_offsets` from the entry behind the siblings `l` of a listing `l ++ r`: the image of
the listing has got the size `s` instead of `s'`, all of it between the entries of `l` and what
is below them. -/
theorem updateOffsets_run (delta : ℤ) (hb : b.Sized) {c : List (Frame Bytes)} {l r : Tree}
    {base off d : ℕ} (d' : ℕ) {dr s s' bk : ℕ} (hoff : off = runPos base c + entriesSize l)
    (hctx : ContextAt b.head base c true s s') (hv : (plug c (l ++ r)).Valid NameOk)
    (hl : EntriesAt b.head (runPos base c) d l) (hbelow : BelowAt b.head bk d l)
    (hr : EntriesAt b.head off dr r)
    (hup : UpAt b.head (off + entriesSize r) (upRel base (entriesSize l + entriesSize r) c))
    (hd : (d : ℤ) + delta = d') (hs : (s' : ℤ) + delta = s) (hbk : bk = off + 5 + d')
    (hin : entriesSize l + 5 + d' + belowSize l ≤ s) (hdr : entriesSize r ≤ d')
    (hfirst : b.firstNameOff = base) (hbase : 0 < base) (hfit : base + plugSize c s ≤ b.tail)
    (hold : base + plugSize c s' ≤ 2 ^ 30) :
    ∃ m', (b.updateOffsets off delta true = some { b with head := m' } ∧
        b.UpdateOffsetsExact off delta true) ∧
      ContextAt m' base c true s s ∧ EntriesAt m' (runPos base c) d' l ∧ BelowAt m' bk d' l ∧
      ∀ i, (i < base ∨ base + plugSize c s ≤ i ∨
        (off ≤ i ∧ i < runPos base c + s ∧ (i < bk ∨ bk + belowSize l ≤ i))) →
        m'.get i = b.head.get i := by
  have hmax := hb.tail_le_max
  have hle := base_le_runPos base c
  have hout := runPos_add_le base c s
  have hout' := runPos_add_le base c s'
  have hnames := length_names_le l
  obtain ⟨hvl, hvr, -⟩ := (valid_append _ _).mp (Valid.of_plug hv)
  have hsib := get1stSiblingOffset_eq hb (hfirst ▸ hctx) hv hr hvr (hfirst ▸ hup)
    (by rw [hfirst]; omega) (by omega) (by rw [hfirst]; omega) (by omega)
  obtain ⟨m₁, hsh, hloop, -⟩ := shift_entries delta hb d' hl hbelow hvl hd (by omega)
    (by omega) (by omega) (by omega)
  have hctx₁ : ContextAt m₁ base c true s s' :=
    hctx.congr (hsh.same (by omega) (by omega)) (hsh.same (by omega) (by omega)) (n := b.tail)
      (by omega)
  have hr₁ : EntriesAt m₁ off dr r := hr.congr (hsh.same (by omega) (by omega))
  have hup₁ : UpAt m₁ (off + entriesSize r) (upRel base (entriesSize l + entriesSize r) c) :=
    hup.congr (hsh.same (by omega) (by omega))
  obtain ⟨m', hclimb, hctx', hframe⟩ := updateParentsLoop_parent (hb.with_head m₁) hoff hctx₁ hv hr₁ hup₁ hs
    (by omega) hbase hfit hold
  obtain ⟨fuel, hfuel⟩ : ∃ k, off = k + l.names.length := ⟨off - l.names.length, by omega⟩
  have hsibs : updateSiblingsLoop off delta off b (runPos base c) = { b with head := m₁ } ∧
      UpdateSiblingsExact off delta off b (runPos base c) := by
    have hlead := hloop fuel off (by omega)
    rw [← hfuel] at hlead
    obtain ⟨hstop, hstop'⟩ := updateSiblingsLoop_stop (b := { b with head := m₁ }) delta
      (show ¬ runPos base c + entriesSize l < off by omega) fuel
    exact ⟨hlead.loop_eq.trans hstop, hlead.of_rest hstop'⟩
  refine ⟨m', ?_, hctx', hsh.entries.congr fun i hi => hframe _ ?_,
    hsh.below.congr fun i hi => hframe _ ?_, fun i hi => ?_⟩
  · rw [hfirst] at hsib
    exact updateOffsets_siblings hb (hb.with_head m₁) hsib
      (firstSiblingExact hb hr hvr hup (by omega) hbase (by omega)) (by omega) hsibs
      (parentOffsetExact (hb.with_head m₁) hr₁ hvr hup₁ (by omega) hbase (by simp only; omega)) hclimb
  · omega
  · omega
  · rw [hframe i (by omega)]
    exact hsh.frame i (by omega) (by omega)

end FsBuf

end DeepinAnything
