import DeepinAnything.FsBuf.Insert
import DeepinAnything.FsBuf.Relocate

/-!
# Removal refines removal from the tree

`remove_path` first takes the subtree of a directory out, which leaves a directory without kids,
and then the entry itself; the only kid of a folder goes together with its run. Each time the
bytes behind move down over the removed ones (`closeGap`) and the offsets that spanned them are
repaired with a negative delta.
-/

namespace DeepinAnything

open ByteMem OrderedForest OrderedForest.Forest

namespace FsBuf

variable {b : FsBuf}

/-! ## Closing a gap -/

/-- The bytes from `off` to `off + size` are gone and those behind have moved down. -/
structure Closed (b b' : FsBuf) (off size : ℕ) : Prop where
  sized : b'.Sized
  capacity_eq : b'.capacity = b.capacity
  first_eq : b'.firstNameOff = b.firstNameOff
  tail_eq : b'.tail + size = b.tail
  before : ∀ i < off, b'.head.get i = b.head.get i
  behind : SameBytes b.head b'.head (off + size) off (b.tail - off - size)

theorem closeGap_closed (hb : b.Sized) (off size : ℕ) (hin : off + size ≤ b.tail) :
    Closed b (b.closeGap off size) off size := by
  have hmax := hb.tail_le_max
  have htail : subU32 b.tail size = b.tail - size := subU32_of_le (by omega) (by omega)
  simp only [closeGap, htail]
  refine ⟨⟨?_, hb.capacity_le⟩, rfl, rfl, ?_, fun i hi => ?_, fun i hi => ?_⟩
  · exact le_trans (Nat.sub_le _ _) hb.tail_le
  · simp only
    omega
  · simp only
    split
    · rw [Mem.move_get_of_not_mem (by omega)]
    · rfl
  · simp only
    rw [if_pos (by omega), Mem.move_get_of_mem hi]

theorem moveDownExact (hb : b.Sized) {off size : ℕ} (hin : off + size ≤ b.tail) : b.MoveDownExact off size := by
  have hcap := hb.tail_le
  have hmax := hb.tail_le_max
  exact ⟨sumExact_of_lt (by omega), diffExact_of_le (by omega) (by omega), fun _ => by omega⟩

/-- The size of a subtree and the delta that goes with it, as the source computes them. -/
theorem kidsDelta_eq (hb : b.Sized) {kidsOff size : ℕ} (hin : kidsOff + size ≤ b.tail) :
    subU32 (kidsOff + size) kidsOff = size ∧ toInt32 (subU32 kidsOff (kidsOff + size)) = -(size : ℤ) := by
  have hmax := hb.tail_le_max
  constructor
  · rw [subU32_of_le (by omega) (by omega)]
    omega
  · rw [toInt32_subU32 (by omega) (by omega)]
    push_cast
    omega

/-- What `removeKids` does to the buffer is closing a gap. -/
theorem removeKids_eq (hb : b.Sized) {nameOff kidsOff size : ℕ} (hin : kidsOff + size ≤ b.tail)
    (h0 : ∃ m, b.doSetKidsOff nameOff 0 = { b with head := m }) :
    b.removeKids nameOff kidsOff (kidsOff + size) =
      ((b.doSetKidsOff nameOff 0).closeGap kidsOff size).updateOffsets nameOff (-size) false := by
  obtain ⟨hsize, hdelta⟩ := kidsDelta_eq hb hin
  obtain ⟨m, hm⟩ := h0
  have hrest : b.tail - (kidsOff + size) = b.tail - kidsOff - size := by omega
  simp only [removeKids, closeGap, hm, hsize, hdelta, hrest]

theorem removeKidsExact_of_closeGap (hb : b.Sized) {nameOff kidsOff size : ℕ} (hin : kidsOff + size ≤ b.tail)
    (h0 : ∃ m, b.doSetKidsOff nameOff 0 = { b with head := m }) (hset : b.SetKidsOffExact nameOff 0)
    (hupd : ((b.doSetKidsOff nameOff 0).closeGap kidsOff size).UpdateOffsetsExact nameOff (-size) false) :
    b.RemoveKidsExact nameOff kidsOff (kidsOff + size) := by
  have hmax := hb.tail_le_max
  obtain ⟨hsize, hdelta⟩ := kidsDelta_eq hb hin
  obtain ⟨m, hm⟩ := h0
  have hrest : b.tail - (kidsOff + size) = b.tail - kidsOff - size := by omega
  refine ⟨hset, diffExact_of_le (by omega) (by omega), deltaExact_of_lt (by omega) (by omega), ?_⟩
  simp only [hm, closeGap] at hupd
  simp only [hm, hsize, hdelta, hrest]
  exact ⟨moveDownExact (hb.with_head m) (by simpa using hin), hupd⟩

/-- The whole image of a listing below a directory goes: its kids offset is cleared, the gap is
closed and the offsets are repaired. -/
theorem dropListing {root : Bytes} {f : Frame Bytes} {c : List (Frame Bytes)} {k : Tree}
    {base : ℕ} (size : ℕ) (h : Represents b root (plug (f :: c) k)) (hk : k ≠ .nil)
    (hbase : b.firstNameOff = base) (hsize : size = treeSize k) :
    ((∃ m, b.doSetKidsOff (ownerPos base f c) 0 = { b with head := m }) ∧
      b.SetKidsOffExact (ownerPos base f c) 0) ∧
    ∃ b', (((b.doSetKidsOff (ownerPos base f c) 0).closeGap (runPos base (f :: c)) size).updateOffsets
          (ownerPos base f c) (-size) false = some b' ∧
        ((b.doSetKidsOff (ownerPos base f c) 0).closeGap (runPos base (f :: c)) size).UpdateOffsetsExact
          (ownerPos base f c) (-size) false) ∧
      Represents b' root (plug (f :: c) .nil) ∧ b'.capacity = b.capacity := by
  have hpos := h.first_pos
  have hle := base_le_runPos base c
  have hfit := h.fits
  have htail := h.tail_eq
  have hcap := h.sized.tail_le
  have hctx := ((treeAt_plug _ _ _).mp h.image).1
  have hf : NameOk f.name := ((valid_append _ _).mp (Valid.of_plug (c := c) h.valid)).2.1.1
  rw [hbase] at hpos hfit htail hctx
  rw [treeSize_plug, plugSize_eq] at hfit htail
  have hin := runPos_add_le base (f :: c) (treeSize k)
  rw [plugSize_eq] at hin
  have hrun := runPos_cons base f c
  have hfsize := frameSize_eq f
  have hksize := treeSize_of_ne_nil hk
  have howner : ownerPos base f c = runPos base c + entriesSize f.left := rfl
  obtain ⟨m₁, hset, hctx₁, hframe₁⟩ := doSetKidsOff_owner 0 hctx hf false rfl (by omega)
    (by omega)
  refine ⟨⟨⟨m₁, hset⟩, setKidsOffExact_owner 0 hctx hf false rfl (by omega) (by omega)⟩, ?_⟩
  have hclosed := closeGap_closed (h.sized.with_head m₁) (runPos base (f :: c)) size
    (by simp only; omega)
  rw [hset]
  set b₂ := ({ b with head := m₁ } : FsBuf).closeGap (runPos base (f :: c)) size with hb₂
  have htail₂ := hclosed.tail_eq
  simp only at htail₂
  have hctx₂ : ContextAt b₂.head base (f :: c) false 0 size := by
    have hbehind := hclosed.behind
    simp only at hbehind
    rw [← hsize] at hctx₁
    refine ContextAt.congr hctx₁ (fun i hi => hclosed.before _ (by omega)) ?_
      (n := b.tail - runPos base (f :: c) - size) (by rw [plugSize_eq]; omega)
    simpa using hbehind
  obtain ⟨m', hupd, hctx', hframe'⟩ := updateOffsets_owner (-size) hclosed.sized hctx₂
    h.valid (by omega) (by omega) (by omega) (by rw [plugSize_eq]; omega)
  refine ⟨_, hupd, ⟨h.root_ok, ?_, ?_, ?_, hclosed.sized.with_head m', ?_, ?_⟩, hclosed.capacity_eq⟩
  · have hfirst' := h.first_eq
    refine h.root_at.congr fun i hi => ?_
    simp only [List.length_append, List.length_singleton] at hi
    rw [hframe' _ (by omega), hclosed.before _ (by omega), hframe₁ _ (by omega)]
  · exact hclosed.first_eq.trans h.first_eq
  · simp only [treeSize_plug, treeSize_nil, hclosed.first_eq]
    omega
  · simp only [hclosed.first_eq, hbase]
    rw [treeAt_plug]
    refine ⟨by simpa using hctx', fun h => absurd rfl h, trivial⟩
  · exact h.valid.replug valid_nil

/-! ## The entry itself -/

theorem nextName_newEntry (hb : b.Sized) {off d : ℕ} {n : Bytes} {isDir : Bool} {r : Tree}
    (h : EntriesAt b.head off d (cons n (newEntry isDir) .nil ++ r)) (hn : NameOk n)
    (hlt : off + n.length < b.tail) : b.nextName off = off + newEntrySize n isDir := by
  have hcap := hb.tail_le
  cases isDir with
  | false => rw [nextName_of_file h.1 hn (by omega)]; rfl
  | true => rw [nextName_of_dir h.1 hn (by omega)]; rfl

/-- What `removeEntry` reads at an entry of `x` bytes in the run of a listing, and what it computes of that. -/
structure EntryReads (b : FsBuf) (c : List (Frame Bytes)) (off x : ℕ) : Prop where
  next : b.nextName off = off + x
  parent : b.getParentOffset off = ownerOff b.firstNameOff c
  first : b.get1stSiblingOffset off = runPos b.firstNameOff c
  firstExact : b.FirstSiblingExact off
  size : subU32 (off + x) off = x
  delta : ∀ n, off + n ≤ b.tail → toInt32 (subU32 0 n) = -(n : ℤ)
  inside : off + x + 5 ≤ b.tail

theorem entryReads {root : Bytes} {c : List (Frame Bytes)} {l r : Tree} {n : Bytes} {isDir : Bool} {off : ℕ}
    (h : Represents b root (plug c (l ++ cons n (newEntry isDir) r)))
    (hoff : off = runPos b.firstNameOff c + entriesSize l) :
    EntryReads b c off (newEntrySize n isDir) := by
  have hpos := h.first_pos
  have hle := base_le_runPos b.firstNameOff c
  have htail := h.tail_eq
  have hmax := h.sized.tail_le_max
  have hne := append_cons_ne_nil l r n (newEntry isDir)
  obtain ⟨hctx, hent, hup, -⟩ := h.image.run hne
  have hvr := ((valid_append _ _).mp (Valid.of_plug h.valid)).2.1
  have hn := ((valid_cons _ _ _).mp hvr).1
  rw [treeSize_plug] at htail
  have hin := runPos_add_le b.firstNameOff c (treeSize (l ++ cons n (newEntry isDir) r))
  have hsize := treeSize_of_ne_nil hne
  obtain ⟨-, hentr⟩ := (entriesAt_append _ _ _ _).mp hent
  rw [← hoff] at hentr
  have hx : entriesSize (cons n (newEntry isDir) r) = newEntrySize n isDir + entriesSize r := by
    rw [← entriesSize_newEntry, ← entriesSize_append, cons_append, nil_append]
  have hxn : n.length < newEntrySize n isDir := by rw [newEntrySize]; omega
  rw [entriesSize_append] at hup hsize
  have hend : off + entriesSize (cons n (newEntry isDir) r) = runPos b.firstNameOff c +
      (entriesSize l + entriesSize (cons n (newEntry isDir) r)) := by omega
  rw [← hend] at hup
  refine ⟨?_, ?_, ?_, ?_, ?_, fun n hn => ?_, by omega⟩
  · exact nextName_newEntry h.sized (r := r) (by rwa [cons_append, nil_append]) hn (by omega)
  · exact getParentOffset_eq h.sized hentr hvr hup hend (by omega) (by omega)
  · exact get1stSiblingOffset_eq h.sized hctx h.valid hentr hvr hup hend (by omega) (by omega) (by omega)
  · exact firstSiblingExact h.sized hentr hvr hup hend (by omega) (by omega)
  · rw [subU32_of_le (by omega) (by omega)]
    omega
  · rw [toInt32_subU32 (by omega) (by omega)]
    omega

/-- `removeEntry` of the only kid of a folder: its run goes with it. -/
theorem removeEntry_only {root : Bytes} {c : List (Frame Bytes)} {n : Bytes} {isDir : Bool}
    {base off : ℕ} (h : Represents b root (plug c (cons n (newEntry isDir) .nil)))
    (hbase : b.firstNameOff = base) (hoff : off = runPos base c) :
    ∃ b', (b.removeEntry off = some (b', ⟨off, -(newEntrySize n isDir + 5 : ℕ)⟩) ∧ b.RemoveEntryExact off) ∧
      Represents b' root (plug c .nil) ∧ b'.capacity = b.capacity := by
  subst hbase hoff
  have hpos := h.first_pos
  have hmax := h.sized.tail_le_max
  have hcap := h.sized.tail_le
  have htail := h.tail_eq
  have hne := cons_ne_nil n (newEntry isDir) (.nil : Tree)
  obtain ⟨-, -, hup, -⟩ := h.image.run hne
  rw [treeSize_plug] at htail
  have hsize := treeSize_of_ne_nil hne
  rw [entriesSize_newEntry, belowSize_newEntry] at hsize
  rw [entriesSize_newEntry] at hup
  have hreads : EntryReads b c (runPos b.firstNameOff c) (newEntrySize n isDir) :=
    entryReads (l := .nil) (r := .nil) h (Nat.add_zero _).symm
  generalize newEntrySize n isDir = x at *
  have hinside := hreads.inside
  have honly : b.head.get (runPos b.firstNameOff c + x) = 0 ∧
      b.get1stSiblingOffset (runPos b.firstNameOff c) = runPos b.firstNameOff c := ⟨hup.1, hreads.first⟩
  have hdelta := hreads.delta (x + 5) (by omega)
  have hreading : b.ReadsExact ∧ b.FirstSiblingExact (runPos b.firstNameOff c) ∧
      b.NextNameExact (runPos b.firstNameOff c) ∧
      DiffExact (runPos b.firstNameOff c + x) (runPos b.firstNameOff c) ∧
      SumExact (runPos b.firstNameOff c + x) :=
    ⟨h.sized.readsExact, hreads.firstExact, h.sized.nextNameExact (by omega),
      diffExact_of_le (by omega) (by omega), sumExact_of_lt (by omega)⟩
  rw [removeEntry, RemoveEntryExact, hreads.next]
  simp only [hreads.size, hreads.parent, if_pos honly, Nat.reduceAdd, hdelta, hreading, true_and]
  cases c with
  | nil =>
    have hclosed := closeGap_closed h.sized (runPos b.firstNameOff []) (x + 5) (by omega)
    have hplug : plugSize [] (treeSize (cons n (newEntry isDir) .nil)) = x + 5 := hsize
    have hrun : runPos b.firstNameOff [] = b.firstNameOff := rfl
    have htail' := hclosed.tail_eq
    simp only [ownerOff_nil, ne_eq, not_true_eq_false, if_false, Option.map_some]
    refine ⟨_, ⟨rfl, sumExact_of_lt (by omega), fun h0 => h0.elim, moveDownExact h.sized (by omega),
      deltaExact_of_lt (by omega) (by omega), fun h0 => h0.elim⟩,
      ⟨h.root_ok, ?_, ?_, ?_, hclosed.sized, ?_, valid_nil⟩, hclosed.capacity_eq⟩
    · have hfirst' := h.first_eq
      refine h.root_at.congr fun i hi => hclosed.before _ ?_
      simp only [List.length_append, List.length_singleton] at hi
      omega
    · exact hclosed.first_eq.trans h.first_eq
    · simp only [plug_nil, treeSize_nil, hclosed.first_eq]
      omega
    · exact ⟨fun h => absurd rfl h, trivial⟩
  | cons f c =>
    have hle' := base_le_runPos b.firstNameOff c
    have howner : ownerPos b.firstNameOff f c = runPos b.firstNameOff c + entriesSize f.left := rfl
    obtain ⟨⟨⟨m, hset⟩, hkids⟩, b', hdrop, hrep, hcap'⟩ := dropListing (x + 5) h hne rfl (by omega)
    have h0 : ownerPos b.firstNameOff f c ≠ 0 := by omega
    simp only [ownerOff_cons, h0, ne_eq, not_false_eq_true, if_true]
    refine ⟨b', ⟨by rw [hdrop.1]; rfl, sumExact_of_lt (by omega), fun _ => hkids, ?_,
      deltaExact_of_lt (by omega) (by omega), fun _ => hdrop.2⟩, hrep, hcap'⟩
    rw [hset]
    exact moveDownExact (h.sized.with_head m) (by simp only; omega)

/-- The parent tag behind an entry of `x` bytes that is to go, written for where it will stand. -/
theorem setParentOffset_ahead {base e E x : ℕ} (c : List (Frame Bytes))
    (hup : UpAt b.head e (upRel base E c)) (he : e = runPos base c + E) (hx : x ≤ E)
    (hbase : dataStart < base) (hlt : e < 2 ^ 30) :
    ∃ m', (if ownerOff base c ≠ 0 then b.setParentOffset e (u32 (ownerOff base c + x)) else b) =
        { b with head := m' } ∧
      UpAt m' e (upRel base (E - x) c) ∧ ∀ i, i < e ∨ e + 5 ≤ i → m'.get i = b.head.get i := by
  cases c with
  | nil => exact ⟨b.head, by simp, hup, fun _ _ => rfl⟩
  | cons f c =>
    have hle := base_le_runPos base c
    have hrun := runPos_cons base f c
    have hsize := frameSize_eq f
    have howner : ownerPos base f c = runPos base c + entriesSize f.left := rfl
    have hrel : upRel base (E - x) (f :: c) = runPos base (f :: c) + (E - x) + 1 - ownerPos base f c :=
      rfl
    have h0 : ownerPos base f c ≠ 0 := by omega
    simp only [ownerOff_cons, h0, ne_eq, not_false_eq_true, if_true]
    refine ⟨_, setParentOffset_eq (upRel base (E - x) (f :: c)) ?_ (by omega) hlt,
      UpAt.store _ _ _, fun i hi => Mem.store_get_of_not_mem (by simpa using hi)⟩
    rw [u32_of_lt (by omega), if_neg (by omega)]
    omega

theorem setParentOffsetExact_ahead {base e E x : ℕ} (c : List (Frame Bytes)) (he : e = runPos base c + E)
    (hx : x ≤ E) (hbase : 0 < base) (hlt : e < 2 ^ 30) (hin : e + 5 ≤ b.capacity) (h0 : ownerOff base c ≠ 0) :
    SumExact (ownerOff base c + x) ∧ b.SetParentOffsetExact e (u32 (ownerOff base c + x)) := by
  cases c with
  | nil => exact absurd rfl h0
  | cons f c =>
    have hle := base_le_runPos base c
    have hrun := runPos_cons base f c
    have hsize := frameSize_eq f
    have howner : ownerPos base f c = runPos base c + entriesSize f.left := rfl
    have hrel : upRel base (E - x) (f :: c) = runPos base (f :: c) + (E - x) + 1 - ownerPos base f c :=
      rfl
    have hsum : SumExact (ownerPos base f c + x) := sumExact_of_lt (by omega)
    refine ⟨hsum, setParentOffsetExact (upRel base (E - x) (f :: c)) ?_ (by omega) hlt hin⟩
    rw [ownerOff_cons, hsum, if_neg (by omega)]
    omega

/-- The image of a tree with the listing `l ++ r` in the context `c`, between whose parts `x` bytes
have just been taken out: the bytes stand where they belong, the offsets are from before. -/
structure Shrunk (b : FsBuf) (root : Bytes) (c : List (Frame Bytes)) (l r : Tree) (off x : ℕ) :
    Prop where
  sized : b.Sized
  root_ok : RootOk root
  root_at : b.head.Holds dataStart (root ++ [0])
  first_eq : b.firstNameOff = dataStart + root.length + 1
  tail_eq : b.tail = b.firstNameOff + plugSize c (treeSize (l ++ r))
  valid : (plug c (l ++ r)).Valid NameOk
  ctx : ContextAt b.head b.firstNameOff c true (treeSize (l ++ r)) (treeSize (l ++ r) + x)
  left : EntriesAt b.head (runPos b.firstNameOff c) (x + entriesSize r) l
  right : EntriesAt b.head off (belowSize l) r
  up : UpAt b.head (off + entriesSize r) (upRel b.firstNameOff (entriesSize l + entriesSize r) c)
  belowLeft : BelowAt b.head (off + 5 + entriesSize r) (x + entriesSize r) l
  belowRight : BelowAt b.head (off + 5 + entriesSize r + belowSize l) (belowSize l) r

/-- Repairing the offsets after something has been taken out of a run. -/
theorem Shrunk.repair {root : Bytes} {c : List (Frame Bytes)} {l r : Tree} {off x : ℕ}
    (h : Shrunk b root c l r off x) (hlr : l ++ r ≠ .nil)
    (hoff : off = runPos b.firstNameOff c + entriesSize l) (hold : b.tail + x ≤ 2 ^ 30) :
    ∃ b', (b.updateOffsets off (-x) true = some b' ∧ b.UpdateOffsetsExact off (-x) true) ∧
      Represents b' root (plug c (l ++ r)) ∧ b'.capacity = b.capacity := by
  have hfirst := h.first_eq
  have htail := h.tail_eq
  have hle := base_le_runPos b.firstNameOff c
  have hin := runPos_add_le b.firstNameOff c (treeSize (l ++ r))
  have hsize := treeSize_of_ne_nil hlr
  simp only [entriesSize_append, belowSize_append] at hsize
  obtain ⟨m', hupd, hctx', hentl', hbl', hframe'⟩ := updateOffsets_run (-x)
    h.sized (entriesSize r) hoff h.ctx h.valid h.left h.belowLeft h.right h.up
    (by push_cast; omega) (by push_cast; omega) rfl (by omega) le_rfl rfl (by omega) (by omega)
    (by rw [plugSize_add]; omega)
  have hsame : ∀ {a n : ℕ}, off ≤ a → a + n ≤ runPos b.firstNameOff c + treeSize (l ++ r) →
      a + n ≤ off + 5 + entriesSize r ∨ off + 5 + entriesSize r + belowSize l ≤ a →
      SameBytes b.head m' a a n := by
    intro a n ha hn hd i hi
    exact hframe' _ (by omega)
  refine ⟨{ b with head := m' }, hupd, ⟨h.root_ok, ?_, hfirst, ?_, h.sized.with_head m', ?_, h.valid⟩,
    rfl⟩
  · refine h.root_at.congr fun i hi => hframe' _ ?_
    simp only [List.length_append, List.length_singleton] at hi
    omega
  · rw [treeSize_plug]
    exact htail
  · refine treeAt_of_run hlr hctx' ?_ ?_ ?_
    · rw [entriesAt_append, Nat.zero_add, Nat.zero_add, ← hoff]
      exact ⟨hentl', h.right.congr (hsame le_rfl (by omega) (by omega))⟩
    · rw [entriesSize_append, ← Nat.add_assoc, ← hoff]
      exact h.up.congr (hsame (by omega) (by omega) (by omega))
    · rw [belowAt_append, entriesSize_append, Nat.zero_add, Nat.zero_add, ← Nat.add_assoc, ← hoff,
        Nat.add_right_comm off (entriesSize r) 5]
      exact ⟨hbl', h.belowRight.congr (hsame (by omega) (by omega) (by omega))⟩

/-- Taking an entry without kids out of a run leaves a run to be repaired. -/
theorem closeGap_shrunk {root : Bytes} {c : List (Frame Bytes)} {l y r : Tree} {off x : ℕ} {m : Mem}
    (h : Represents b root (plug c (l ++ (y ++ r)))) (hlr : l ++ r ≠ .nil)
    (hoff : off = runPos b.firstNameOff c + entriesSize l) (hx : entriesSize y = x)
    (hy : belowSize y = 0)
    (hup : UpAt m (off + x + entriesSize r) (upRel b.firstNameOff (entriesSize l + entriesSize r) c))
    (hframe : ∀ i, i < off + x + entriesSize r ∨ off + x + entriesSize r + 5 ≤ i →
      m.get i = b.head.get i) :
    Shrunk (({ b with head := m } : FsBuf).closeGap off x) root c l r off x ∧
      (({ b with head := m } : FsBuf).closeGap off x).capacity = b.capacity ∧
      (({ b with head := m } : FsBuf).closeGap off x).firstNameOff = b.firstNameOff ∧
      (({ b with head := m } : FsBuf).closeGap off x).tail + x = b.tail := by
  have hne : l ++ (y ++ r) ≠ .nil := by
    intro h0
    have := congrArg entriesSize h0
    simp only [entriesSize_append, entriesSize_nil] at this
    have := entriesSize_eq_zero_iff.not.mpr hlr
    simp only [entriesSize_append] at this
    omega
  have hfirst := h.first_eq
  have hle := base_le_runPos b.firstNameOff c
  have htail := h.tail_eq
  obtain ⟨hctx, hent, -, hbelow⟩ := h.image.run hne
  rw [treeSize_plug, plugSize_eq] at htail
  have hin := runPos_add_le b.firstNameOff c (treeSize (l ++ (y ++ r)))
  rw [plugSize_eq] at hin
  have hsize := treeSize_of_ne_nil hne
  have hsize' := treeSize_of_ne_nil hlr
  simp only [entriesSize_append, belowSize_append, entriesAt_append, belowAt_append, hx, hy,
    ← hoff, Nat.zero_add, Nat.add_zero] at hsize hsize' hent hbelow
  have hS : treeSize (l ++ (y ++ r)) = treeSize (l ++ r) + x := by omega
  have hclosed := closeGap_closed (h.sized.with_head m) off x (by simp only; omega)
  obtain ⟨hvl, hvyr, hdisj⟩ := (valid_append _ _).mp (Valid.of_plug h.valid)
  obtain ⟨hentl, -, hentr⟩ := hent
  obtain ⟨hbl, -, hbr⟩ := hbelow
  generalize ({ b with head := m } : FsBuf).closeGap off x = b₂ at hclosed
  have htail₂ : b₂.tail + x = b.tail := hclosed.tail_eq
  have hfirst₂ : b₂.firstNameOff = b.firstNameOff := hclosed.first_eq
  have hbefore : SameBytes b.head b₂.head 0 0 off := fun i hi => by
    rw [hclosed.before _ (by omega), hframe _ (by omega)]
  have hbehind : SameBytes m b₂.head (off + x) off (b.tail - off - x) := hclosed.behind
  have hmoved : ∀ {p p' n : ℕ}, p = p' + x → off ≤ p' → p + n ≤ b.tail →
      p + n ≤ off + x + entriesSize r ∨ off + x + entriesSize r + 5 ≤ p →
      SameBytes b.head b₂.head p p' n := by
    intro p p' n hp hoffp hn hd i hi
    have := hbehind (p' - off + i) (by omega)
    rw [hframe _ (by omega)] at this
    convert this using 2 <;> omega
  refine ⟨⟨hclosed.sized, h.root_ok, ?_, ?_, ?_, ?_, ?_, ?_, ?_, ?_, ?_, ?_⟩, hclosed.capacity_eq,
    hfirst₂, htail₂⟩
  · refine h.root_at.congr fun i hi => ?_
    simp only [List.length_append, List.length_singleton] at hi
    simpa using hbefore (dataStart + i) (by omega)
  · rw [hfirst₂, hfirst]
  · rw [hfirst₂, plugSize_eq]
    omega
  · refine h.valid.replug ((valid_append _ _).mpr ⟨hvl, ((valid_append _ _).mp hvyr).2.1, ?_⟩)
    intro n hn hr
    refine hdisj n hn ?_
    rw [names_append]
    exact List.mem_append_right _ hr
  · rw [hfirst₂]
    rw [hS] at hctx
    refine hctx.congr ?_ (hmoved (by omega) (by omega) ?_ (by omega))
      (n := b.tail - runPos b.firstNameOff c - treeSize (l ++ (y ++ r))) ?_
    · simpa using hbefore.sub (k := b.firstNameOff)
        (l := runPos b.firstNameOff c - b.firstNameOff) (by omega)
    · omega
    · rw [plugSize_eq]
      omega
  · rw [hfirst₂]
    refine hentl.congr ?_
    simpa using hbefore.sub (k := runPos b.firstNameOff c) (l := entriesSize l) (by omega)
  · exact hentr.congr (hmoved rfl le_rfl (by omega) (by omega))
  · rw [hfirst₂]
    refine hup.congr fun i hi => ?_
    have := hbehind (entriesSize r + i) (by omega)
    convert this using 2 <;> omega
  · exact hbl.congr (hmoved (by omega) (by omega) (by omega) (by omega))
  · exact hbr.congr (hmoved (by omega) (by omega) (by omega) (by omega))

/-- `removeEntry` of an entry that has siblings. -/
theorem removeEntry_run {root : Bytes} {c : List (Frame Bytes)} {l r : Tree} {n : Bytes}
    {isDir : Bool} {off : ℕ} (h : Represents b root (plug c (l ++ cons n (newEntry isDir) r)))
    (hlr : l ++ r ≠ .nil) (hoff : off = runPos b.firstNameOff c + entriesSize l) :
    ∃ b', (b.removeEntry off = some (b', ⟨off, -(newEntrySize n isDir : ℕ)⟩) ∧ b.RemoveEntryExact off) ∧
      Represents b' root (plug c (l ++ r)) ∧ b'.capacity = b.capacity := by
  have hreads := entryReads h hoff
  generalize hy : cons n (newEntry isDir) (.nil : Tree) = y
  have hcons : cons n (newEntry isDir) r = y ++ r := by rw [← hy, cons_append, nil_append]
  have hey : entriesSize y = newEntrySize n isDir := hy ▸ entriesSize_newEntry n isDir
  have hby : belowSize y = 0 := hy ▸ belowSize_newEntry n isDir
  have hne : l ++ (y ++ r) ≠ .nil := hcons ▸ append_cons_ne_nil l r n (newEntry isDir)
  rw [hcons] at h
  have hpos := h.first_pos
  have hmax := h.sized.tail_le_max
  have hcap := h.sized.tail_le
  have htail := h.tail_eq
  rw [treeSize_plug] at htail
  have hin := runPos_add_le b.firstNameOff c (treeSize (l ++ (y ++ r)))
  have hsize := treeSize_of_ne_nil hne
  obtain ⟨-, hent, hup, -⟩ := h.image.run hne
  have hvyr := ((valid_append _ _).mp (Valid.of_plug h.valid)).2.1
  have hvr := ((valid_append _ _).mp hvyr).2.1
  generalize newEntrySize n isDir = x at *
  obtain ⟨-, hentyr⟩ := (entriesAt_append _ _ _ _).mp hent
  simp only [entriesSize_append, belowSize_append, hey, ← hoff, Nat.zero_add] at hsize hup hentyr
  have hentr := ((entriesAt_append _ _ _ _).mp hentyr).2
  rw [hey] at hentr
  -- what the function reads
  have hend : runPos b.firstNameOff c + (entriesSize l + (x + entriesSize r)) =
      off + entriesSize (y ++ r) := by
    rw [entriesSize_append, hey]
    omega
  have htailOff := getFolderTailOffset_eq h.sized hentyr (hend ▸ hup).1 hvyr (by rw [← hend]; omega)
  rw [← hend] at htailOff
  have hcond : ¬ (b.head.get (off + x) = 0 ∧ b.get1stSiblingOffset off = off) := by
    rintro ⟨hzero, hfirst⟩
    rw [hreads.first, hoff] at hfirst
    obtain rfl : l = .nil := entriesSize_eq_zero_iff.mp (by omega)
    exact get_ne_zero_of_entries hentr hvr (by simpa using hlr) hzero
  have hdelta := hreads.delta x (by omega)
  -- the parent tag, the bytes behind and the offsets
  obtain ⟨m, hset, hup', hframe⟩ := setParentOffset_ahead c hup rfl (x := x) (by omega) hpos (by omega)
  have hparent := setParentOffsetExact_ahead (b := b) (x := x) c
    (rfl : _ = runPos b.firstNameOff c + (entriesSize l + (x + entriesSize r))) (by omega) (by omega)
    (by omega) (by omega)
  have hE : entriesSize l + (x + entriesSize r) - x = entriesSize l + entriesSize r := by omega
  have hpos' : runPos b.firstNameOff c + (entriesSize l + (x + entriesSize r)) =
      off + x + entriesSize r := by omega
  rw [hE, hpos'] at hup'
  rw [hpos'] at hframe
  obtain ⟨hshrunk, hcap', hfirst, htail'⟩ := closeGap_shrunk h hlr hoff hey hby hup' hframe
  obtain ⟨b', hupd, hrep, hcap''⟩ := hshrunk.repair hlr (by rw [hfirst]; exact hoff) (by omega)
  refine ⟨b', ⟨?_, ?_⟩, hrep, hcap''.trans hcap'⟩
  · rw [removeEntry, hreads.next]
    simp only [hreads.size, hreads.parent, hcond, if_false, htailOff, hset, hdelta, hupd.1, Option.map_some]
  · rw [RemoveEntryExact, hreads.next]
    simp only [hreads.size, hreads.parent, hcond, if_false, htailOff, hset, hdelta]
    exact ⟨h.sized.readsExact, hreads.firstExact, h.sized.nextNameExact (by omega),
      diffExact_of_le (by omega) (by omega), sumExact_of_lt (by omega), hparent,
      moveDownExact (h.sized.with_head m) (by simp only; omega), deltaExact_of_lt (by omega) (by omega), hupd.2⟩

/-- `removeEntry` takes an entry without kids out of the tree. -/
theorem removeEntry_spec {root : Bytes} {c : List (Frame Bytes)} {l r : Tree} {n : Bytes}
    (isDir : Bool) (off : ℕ) (h : Represents b root (plug c (l ++ cons n (newEntry isDir) r)))
    (hoff : off = runPos b.firstNameOff c + entriesSize l) :
    ∃ b', (b.removeEntry off = some (b', ⟨off, -(gapSize n (newEntry isDir) (l ++ r) : ℤ)⟩) ∧
        b.RemoveEntryExact off) ∧
      Represents b' root (plug c (l ++ r)) ∧ b'.capacity = b.capacity := by
  by_cases hlr : l ++ r = .nil
  · have hsize := congrArg entriesSize hlr
    rw [entriesSize_append, entriesSize_nil] at hsize
    obtain rfl : l = .nil := entriesSize_eq_zero_iff.mp (by omega)
    obtain rfl : r = .nil := entriesSize_eq_zero_iff.mp (by omega)
    obtain ⟨b', heq, hrep, hcap⟩ := removeEntry_only h rfl (by simpa using hoff)
    rw [gapSize, entriesSize_newEntry, if_pos hlr]
    exact ⟨b', heq, hrep, hcap⟩
  · obtain ⟨b', heq, hrep, hcap⟩ := removeEntry_run h hlr hoff
    rw [gapSize, entriesSize_newEntry, if_neg hlr]
    exact ⟨b', heq, hrep, hcap⟩

end FsBuf

/-! ## `remove_path` -/

theorem exists_newEntry {e : Entry Bytes} (h : e.kids = .nil) : ∃ isDir, e = newEntry isDir := by
  cases e with
  | leaf => exact ⟨false, rfl⟩
  | node k => exact ⟨true, by rw [show k = .nil from h]; rfl⟩

/-- The bytes of the image of a tree, as they are copied out of a buffer. -/
def IsImage (bs : Bytes) (t : Tree) : Prop :=
  ∃ m off up, TreeAt m off up t ∧ bs = m.load off (treeSize t)

/-- The changes that the removal of an entry reports: the kids with all below them, and the entry. -/
def removeChanges (base : ℕ) (c : List (Frame Bytes)) (l r : Tree) (n : Bytes) (e : Entry Bytes) :
    List FsChange :=
  (if e.kids = .nil then [] else [⟨runPos base (⟨l, n, r⟩ :: c), -(treeSize e.kids : ℤ)⟩]) ++
    [⟨runPos base c + entriesSize l, -(gapSize n e (l ++ r) : ℤ)⟩]

namespace FsBuf

variable {b : FsBuf}

/-- What `do_remove_path` does to the entry that its path leads to. -/
theorem doRemovePath_entry {root p : Bytes} {c : List (Frame Bytes)} {l r : Tree} {n : Bytes}
    {e : Entry Bytes} (h : Represents b root (plug c (l ++ cons n e r)))
    (hoff : b.getPathOffset p = runPos b.firstNameOff c + entriesSize l) (malloc : ℕ → Bool)
    (changes : List FsChange) (copyKids : Bool) :
    (copyKids = true ∧ e.kids ≠ .nil ∧ malloc (treeSize e.kids) = false ∧
      b.doRemovePath malloc p changes copyKids = some (.noMem, b, [], none)) ∨
    (¬ (copyKids = true ∧ e.kids ≠ .nil ∧ malloc (treeSize e.kids) = false) ∧
      ∃ b' kidsTree,
        b.doRemovePath malloc p changes copyKids =
          some (.ok, b', removeChanges b.firstNameOff c l r n e, kidsTree) ∧
        Represents b' root (plug c (l ++ r)) ∧ b'.capacity = b.capacity ∧
        (copyKids = true → e.kids ≠ .nil → ∃ bs, kidsTree = some bs ∧ IsImage bs e.kids) ∧
        (copyKids = false ∨ e.kids = .nil → kidsTree = none)) := by
  have hfacts := h.entryFacts
  have hpos := hfacts.pos
  have hkids := hfacts.kidsOff
  generalize hoff' : runPos b.firstNameOff c + entriesSize l = off at hoff hpos hkids
  have h0 : off ≠ 0 := by omega
  have hroot : off ≠ dataStart := by omega
  rw [doRemovePath]
  simp only [hoff, h0, hroot, if_false]
  by_cases hk : e.kids = .nil
  · refine .inr ⟨fun hm => hm.2.1 hk, ?_⟩
    obtain ⟨isDir, rfl⟩ := exists_newEntry hk
    obtain ⟨b', heq, hrep, hcap⟩ := removeEntry_spec _ _ h hoff'.symm
    simp only [hkids, hk, if_true, ne_eq, not_true_eq_false, if_false, heq.1, Option.map_some,
      removeChanges, hoff', List.nil_append]
    exact ⟨b', _, rfl, hrep, hcap, fun _ h => h.elim, fun _ => rfl⟩
  rw [if_neg hk] at hkids
  cases e with
  | leaf => exact absurd rfl hk
  | node k =>
    have hkids0 : b.getKidsOffset off ≠ 0 := by
      rw [hkids, runPos_cons]
      omega
    have hrep : Represents b root (plug (⟨l, n, r⟩ :: c) k) := h
    have htail := h.tail_eq
    have hin := runPos_add_le b.firstNameOff (⟨l, n, r⟩ :: c) (treeSize k)
    have himage := ((treeAt_plug _ (⟨l, n, r⟩ :: c) k).mp h.image).2
    rw [show plug c (l ++ cons n (.node k) r) = plug (⟨l, n, r⟩ :: c) k from rfl, treeSize_plug] at htail
    have hend := getTreeEndOffset_eq h.sized himage hk
      (Valid.of_plug (c := ⟨l, n, r⟩ :: c) h.valid) (by omega)
    have hmax := h.sized.tail_le_max
    have hsub : subU32 (runPos b.firstNameOff (⟨l, n, r⟩ :: c) + treeSize k)
        (runPos b.firstNameOff (⟨l, n, r⟩ :: c)) = treeSize k := by
      rw [subU32_of_le (by omega) (by omega)]
      omega
    obtain ⟨hset, b₁, hdrop, hrep₁, hcap₁⟩ := dropListing _ hrep hk rfl rfl
    have hdrop := hdrop.1
    rw [← removeKids_eq h.sized (by omega) hset.1, show ownerPos b.firstNameOff ⟨l, n, r⟩ c = off from hoff']
      at hdrop
    have hfirst : b₁.firstNameOff = b.firstNameOff := hrep₁.first_eq.trans h.first_eq.symm
    have hdelta : toInt32 (subU32 (runPos b.firstNameOff (⟨l, n, r⟩ :: c))
        (runPos b.firstNameOff (⟨l, n, r⟩ :: c) + treeSize k)) = -(treeSize k : ℤ) := by
      rw [toInt32_subU32 (by omega) (by omega)]
      push_cast
      omega
    have hchanges : removeChanges b.firstNameOff c l r n (.node k) =
        [⟨runPos b.firstNameOff (⟨l, n, r⟩ :: c), -(treeSize k : ℤ)⟩,
          ⟨off, -(gapSize n (newEntry true) (l ++ r) : ℤ)⟩] := by
      rw [removeChanges, if_neg hk, hoff']
      rfl
    obtain ⟨b', heq, hrep', hcap'⟩ := removeEntry_spec (l := l) (r := r) (n := n) (c := c)
      true off hrep₁ (by rw [hfirst]; exact hoff'.symm)
    rw [hkids] at hkids0
    simp only [hkids, if_pos hkids0, hend, copyTree, hsub, hchanges, Entry.kids]
    cases copyKids with
    | false =>
      simp only [Bool.false_eq_true, false_and, not_false_eq_true, true_and, if_false, hdrop, heq.1,
        Option.map_some, false_or, true_or, true_imp_iff, false_imp_iff]
      exact ⟨b', _, by rw [hdelta], hrep', hcap'.trans hcap₁, rfl⟩
    | true =>
      by_cases hmalloc : malloc (treeSize k) = false
      · exact .inl ⟨rfl, hk, hmalloc, by simp [hmalloc]⟩
      · refine .inr ⟨fun h => hmalloc h.2.2, ?_⟩
        simp only [Bool.not_eq_false] at hmalloc
        simp only [if_true, hmalloc, hdrop, heq.1, Option.map_some]
        exact ⟨b', _, by rw [hdelta], hrep', hcap'.trans hcap₁,
          fun _ _ => ⟨_, rfl, b.head, _, _, himage, rfl⟩, fun h => absurd h (by simpa [Entry.kids] using hk)⟩

/-- `do_remove_path` of the root empties the tree. -/
theorem doRemovePath_root {root p : Bytes} {t : Tree} (h : Represents b root t)
    (hoff : b.getPathOffset p = dataStart) (malloc : ℕ → Bool) (changes : List FsChange) :
    ∃ b' changes', b.doRemovePath malloc p changes false = some (.ok, b', changes', none) ∧
      Represents b' root .nil ∧ b'.capacity = b.capacity := by
  have htail := h.tail_eq
  rw [doRemovePath, hoff]
  simp only [show dataStart ≠ 0 by simp [dataStart], if_false, if_true, copyTree, Bool.false_eq_true]
  refine ⟨_, _, rfl, ⟨h.root_ok, h.root_at, h.first_eq, rfl, ⟨?_, h.sized.capacity_le⟩, ?_, valid_nil⟩,
    rfl⟩
  · exact le_trans (by simp only; omega) h.sized.tail_le
  · exact ⟨fun h => absurd rfl h, trivial⟩

/-- What `remove_path` comes to on the tree. -/
theorem removePath_cases {root : Bytes} {t : Tree} (h : Represents b root t) (p : Bytes)
    (changes : List FsChange) :
    (resolve root t p = none ∧ b.removePath p changes = some (.noPath, b, changes)) ∨
    (resolve root t p = some [] ∧ ∃ b' changes',
      b.removePath p changes = some (.ok, b', changes') ∧ Represents b' root .nil ∧
      b'.capacity = b.capacity) ∨
    ∃ q n, resolve root t p = some (q ++ [n]) ∧ ∃ b' changes',
      b.removePath p changes = some (.ok, b', changes') ∧ Represents b' root (t.remove q n) ∧
      b'.capacity = b.capacity := by
  rcases h.lookup_cases p with ⟨hres, hoff⟩ | ⟨hres, hoff⟩ | ⟨c, l, r, n, e, rfl, hc, hl, hres, hoff⟩
  · exact .inl ⟨hres, by simp [removePath, doRemovePath, hoff]⟩
  · obtain ⟨b', changes', heq, hrep, hcap⟩ := doRemovePath_root h hoff (fun _ => true) changes
    exact .inr (.inl ⟨hres, b', changes', by simp [removePath, heq], hrep, hcap⟩)
  · refine .inr (.inr ⟨path c, n, hres, ?_⟩)
    rcases doRemovePath_entry h hoff (fun _ => true) changes false with hfail | ⟨-, hok⟩
    · simp at hfail
    · obtain ⟨b', kidsTree, heq, hrep, hcap, -⟩ := hok
      refine ⟨b', removeChanges b.firstNameOff c l r n e, by simp [removePath, heq], ?_, hcap⟩
      rwa [remove_plug hc hl]

/-- `remove_path` refines removal from the tree: nothing is found and nothing changes, the root is
emptied, or the entry goes with all that is below it and everything else stays. -/
theorem removePath_refines {root : Bytes} {t : Tree} (h : Represents b root t) (path : Bytes)
    (changes : List FsChange) :
    ∃ ret b' changes', b.removePath path changes = some (ret, b', changes') ∧
      (resolve root t path = none → ret = .noPath ∧ b' = b) ∧
      (resolve root t path = some [] → ret = .ok ∧ Represents b' root .nil) ∧
      ∀ q n, resolve root t path = some (q ++ [n]) → ret = .ok ∧
        Represents b' root (t.remove q n) ∧
        ∀ p, (t.remove q n).kindAt p = if q ++ [n] <+: p then none else t.kindAt p := by
  rcases removePath_cases h path changes with
    ⟨hres, heq⟩ | ⟨hres, b', changes', heq, hrep, -⟩ | ⟨q, n, hres, b', changes', heq, hrep, -⟩
  · exact ⟨_, _, _, heq, by simp, by simp [hres], by simp [hres]⟩
  · exact ⟨_, _, _, heq, by simp [hres], fun _ => ⟨rfl, hrep⟩, by simp [hres]⟩
  · refine ⟨_, _, _, heq, by simp [hres], by simp [hres], ?_⟩
    intro q' n' hres'
    obtain ⟨rfl, rfl⟩ : q = q' ∧ n = n' := by simpa [hres] using hres'
    obtain ⟨e, hentry⟩ : ∃ e, t.entryAt (q ++ [n]) = some e := by
      have hfound := (Option.filter_eq_some_iff.mp hres).2
      exact Option.isSome_iff_exists.mp hfound
    exact ⟨rfl, hrep, kindAt_remove h.valid hentry⟩

/-- The folder `/d` with a file in it is removed from a root that has another file. -/
theorem removePath_refines_sample : ∃ ret b' changes',
    (imageBuf [47] (.node [100] (.leaf [97] .nil) (.leaf [98] .nil)) 64).removePath [47, 100] [] =
      some (ret, b', changes') ∧ ret = .ok ∧ Represents b' [47] (.leaf [98] .nil) := by
  have hrep := represents_imageBuf [47] (.node [100] (.leaf [97] .nil) (.leaf [98] .nil)) 64
    ⟨rfl, rfl, by decide⟩ (by decide) (by decide) (by decide)
  obtain ⟨ret, b', changes', heq, -, -, hentry⟩ := removePath_refines hrep [47, 100] []
  obtain ⟨hok, hrep', -⟩ := hentry [] [100] (by decide)
  exact ⟨ret, b', changes', heq, hok, hrep'⟩

end FsBuf

end DeepinAnything
