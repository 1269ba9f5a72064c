import DeepinAnything.FsBuf.Lookup
import DeepinAnything.FsBuf.Edit

/-!
# Relocation

An edit opens or closes gaps in the image, and reports each as an `fs_change` for those who hold
offsets of entries. `Opened` says where an offset is before and after a gap has been opened; the
three kinds of gap are the kids of a directory, an entry in its run, and a run of one entry.
-/

namespace DeepinAnything

open ByteMem OrderedForest OrderedForest.Forest

/-! ## Holders of offsets -/

/-- What a holder makes of an offset when it learns of a change. -/
def FsChange.apply (change : FsChange) (off : ℕ) : ℕ :=
  if change.startOff ≤ off then addDelta off change.delta else off

/-- The changes one after the other. -/
def relocate (changes : List FsChange) (off : ℕ) : ℕ :=
  changes.foldl (fun off change => change.apply off) off

@[simp] theorem relocate_nil (off : ℕ) : relocate [] off = off := rfl

@[simp] theorem relocate_cons (change : FsChange) (changes : List FsChange) (off : ℕ) :
    relocate (change :: changes) off = relocate changes (change.apply off) := rfl

theorem relocate_append (x y : List FsChange) (off : ℕ) :
    relocate (x ++ y) off = relocate y (relocate x off) :=
  List.foldl_append

/-- `add_inkw_fsbuf_offsets` on the offsets of a keyword: how many were changed, and the offsets. -/
def addInkwFsbufOffsets (offsets : List ℕ) (startOff : ℕ) (delta : ℤ) : ℕ × List ℕ :=
  match offsets.getLast? with
  | none => (0, offsets)
  | some last =>
    if last < startOff then (0, offsets)
    else
      ((offsets.filter (startOff ≤ ·)).length,
        offsets.map fun off => if off ≥ startOff then addDelta off delta else off)

/-- On offsets that are sorted, as the index keeps them, the last one says whether there is anything
to do. -/
theorem addInkwFsbufOffsets_eq {offsets : List ℕ} (hsorted : offsets.Pairwise (· ≤ ·))
    (change : FsChange) :
    (addInkwFsbufOffsets offsets change.startOff change.delta).2 = offsets.map change.apply := by
  unfold addInkwFsbufOffsets
  cases hlast : offsets.getLast? with
  | none =>
    rw [List.getLast?_eq_none_iff] at hlast
    rw [hlast]
    rfl
  | some last =>
    simp only
    split
    · rename_i hlt
      refine (List.map_id offsets).symm.trans (List.map_congr_left fun off hoff => ?_)
      have hle : off ≤ last := by
        obtain ⟨init, rfl⟩ : ∃ init, offsets = init ++ [last] :=
          ⟨offsets.dropLast, (List.dropLast_append_getLast? last hlast).symm⟩
        rcases List.mem_append.mp hoff with hoff | hoff
        · exact (List.pairwise_append.mp hsorted).2.2 off hoff last (by simp)
        · exact (List.mem_singleton.mp hoff).le
      exact (if_neg (by omega)).symm
    · rfl

/-! ## Gaps -/

/-- The offset `o` is at `o'` after a gap of `size` bytes has been opened at `off`. -/
def Opened (off size o o' : ℕ) : Prop := (o < off ∧ o' = o) ∨ (off ≤ o ∧ o' = o + size)

theorem Opened.le {off size o o' : ℕ} (h : Opened off size o o') : o ≤ o' := by
  rcases h with ⟨-, rfl⟩ | ⟨-, rfl⟩ <;> omega

theorem Opened.apply {off size o o' : ℕ} (h : Opened off size o o') (hlt : o' < 2 ^ 32) :
    FsChange.apply ⟨off, size⟩ o = o' := by
  unfold FsChange.apply
  rcases h with ⟨ho, rfl⟩ | ⟨ho, rfl⟩
  · exact if_neg (by simp only; omega)
  · rw [if_pos (by simpa using ho)]
    have := addDelta_of_nonneg o (size : ℤ) (by omega) (by omega)
    simp only
    omega

theorem Opened.apply_neg {off size o o' : ℕ} (h : Opened off size o o') (hlt : o' < 2 ^ 32) :
    FsChange.apply ⟨off, -(size : ℤ)⟩ o' = o := by
  unfold FsChange.apply
  rcases h with ⟨ho, rfl⟩ | ⟨ho, rfl⟩
  · exact if_neg (by simp only; omega)
  · rw [if_pos (show off ≤ o + size by omega)]
    have := addDelta_of_nonneg (o + size) (-(size : ℤ)) (by omega) (by omega)
    simp only
    omega

/-! ## Offsets in an image -/

theorem runPos_add (base s : ℕ) (c : List (Frame Bytes)) :
    runPos (base + s) c = runPos base c + s := by
  induction c with
  | nil => rfl
  | cons f c ih =>
    rw [runPos, runPos, ih]
    omega

/-- An image further on has its entries further on. -/
theorem offAt_add {t : Tree} {q : List Bytes} {e : Entry Bytes} (off s : ℕ)
    (h : t.entryAt q = some e) (hq : q ≠ []) : offAt (off + s) t q = offAt off t q + s := by
  obtain ⟨p, n, rfl⟩ : ∃ p n, q = p ++ [n] :=
    ⟨q.dropLast, q.getLast hq, (List.dropLast_append_getLast hq).symm⟩
  obtain ⟨c, l, r, rfl, rfl, hc, hl⟩ := exists_plug_of_entryAt h
  rw [offAt_plug_cons hc _ hl, offAt_plug_cons hc _ hl, runPos_add]
  omega

theorem offAt_lt {t : Tree} {q : List Bytes} {e : Entry Bytes} (off : ℕ) (h : t.entryAt q = some e)
    (hq : q ≠ []) : offAt off t q < off + treeSize t := by
  obtain ⟨p, n, rfl⟩ : ∃ p n, q = p ++ [n] :=
    ⟨q.dropLast, q.getLast hq, (List.dropLast_append_getLast hq).symm⟩
  obtain ⟨c, l, r, rfl, rfl, hc, hl⟩ := exists_plug_of_entryAt h
  have hle := runPos_add_le off c (treeSize (l ++ cons n e r))
  have hsize := treeSize_of_ne_nil (append_cons_ne_nil l r n e)
  rw [entriesSize_append] at hsize
  rw [offAt_plug_cons hc _ hl, treeSize_plug]
  omega

/-- Nothing or something behind the start stands at an address. -/
theorem offAt_cases (off : ℕ) (t : Tree) {q : List Bytes} (hq : q ≠ []) :
    (∀ s, offAt s t q = 0) ∨
      ∃ z, off ≤ z ∧ z < off + treeSize t ∧ ∀ s, offAt (off + s) t q = z + s := by
  cases hentry : t.entryAt q with
  | none => exact .inl fun s => offAt_eq_zero_of_entryAt s hentry
  | some e =>
    exact .inr ⟨offAt off t q, le_offAt off hentry hq, offAt_lt off hentry hq,
      fun s => offAt_add off s hentry hq⟩

/-! ## Gaps in the image of a tree -/

theorem find?_frame {f : Frame Bytes} {t : Tree} {x : Bytes} (hx : x ≠ f.name) :
    (f.left ++ node f.name t f.right).find? x = (f.left.find? x).or (f.right.find? x) := by
  rw [← cons_node, find?_append, find?_cons, if_neg (Ne.symm hx)]

/-- Where an entry around the hole of a frame stands: before what is in the hole, or behind it. -/
theorem offAt_frame {f : Frame Bytes} (hf : f.name ∉ f.left.names) {off : ℕ} (hoff : 0 < off)
    {x : Bytes} {xs : List Bytes} (hx : x = f.name → xs = []) :
    (∃ z < off + frameSize f + 5 + belowSize f.left,
      ∀ t, offAt off (f.left ++ node f.name t f.right) (x :: xs) = z) ∨
    (∃ z, off + frameSize f + 5 + belowSize f.left ≤ z ∧
      ∀ t, offAt off (f.left ++ node f.name t f.right) (x :: xs) = z + treeSize t) := by
  have hsize := frameSize_eq f
  have hrun : ∀ t, runSize (f.left ++ node f.name t f.right) = frameSize f + 5 := fun t => by
    have hne : f.left ++ node f.name t f.right ≠ .nil :=
      append_cons_ne_nil f.left f.right f.name (.node t)
    rw [runSize_of_ne_nil hne, entriesSize_wrap]
  by_cases hname : x = f.name
  · -- the directory that owns the listing
    rw [hx hname, hname]
    refine .inl ⟨off + entriesSize f.left, by omega, fun t => ?_⟩
    simp only [offAt, ← cons_node, find?_append_cons hf, beforeName_append_cons hf, if_true]
  cases hleft : f.left.find? x with
  | some e =>
    obtain ⟨l, r, hl, hxl⟩ := exists_of_find?_eq_some hleft
    have hsplit : ∀ t, f.left ++ node f.name t f.right =
        l ++ cons x e (r ++ node f.name t f.right) := fun t => by
      rw [hl, append_assoc, cons_append]
    have hfind : ∀ t, (f.left ++ node f.name t f.right).find? x = some e := fun t => by
      rw [hsplit, find?_append_cons hxl]
    have hbefore : ∀ t, beforeName x (f.left ++ node f.name t f.right) = l := fun t => by
      rw [hsplit, beforeName_append_cons hxl]
    have hbelow : belowSize f.left = belowSize l + belowSize (cons x e r) := by
      rw [hl, belowSize_append]
    have hentries : entriesSize l ≤ entriesSize f.left := by
      rw [hl, entriesSize_append]
      omega
    by_cases hxs : xs = []
    · refine .inl ⟨off + entriesSize l, by omega, fun t => ?_⟩
      simp [offAt, hfind, hbefore, hxs]
    · have hin : treeSize e.kids ≤ belowSize (cons x e r) := by
        cases e with
        | leaf => exact Nat.zero_le _
        | node k => rw [cons_node, belowSize_node]; exact Nat.le_add_right _ _
      refine .inl ⟨offAt (off + (frameSize f + 5) + belowSize l) e.kids xs, ?_, fun t => ?_⟩
      · rcases offAt_cases (off + (frameSize f + 5) + belowSize l) e.kids hxs with
          hnone | ⟨z, -, hlt, hz⟩
        · rw [hnone]
          omega
        · have := hz 0
          rw [Nat.add_zero, Nat.add_zero] at this
          omega
      · simp only [offAt, hfind, hbefore, hrun, hxs, if_false]
  | none =>
    have hxl : x ∉ f.left.names := (find?_eq_none_iff _ _).mp hleft
    cases hright : f.right.find? x with
    | none =>
      have hfind : ∀ t, (f.left ++ node f.name t f.right).find? x = none := fun t => by
        rw [find?_frame hname, hleft, hright]
        rfl
      exact .inl ⟨0, by omega, fun t => by simp [offAt, hfind]⟩
    | some e =>
      obtain ⟨l, r, hr, hxr⟩ := exists_of_find?_eq_some hright
      have hsplit : ∀ t, f.left ++ node f.name t f.right =
          (f.left ++ node f.name t l) ++ cons x e r := fun t => by
        rw [hr, append_assoc, node_append]
      have hnot : ∀ t, x ∉ (f.left ++ node f.name t l).names := fun t => by
        simp [hxl, hname, hxr]
      have hfind : ∀ t, (f.left ++ node f.name t f.right).find? x = some e := fun t => by
        rw [hsplit, find?_append_cons (hnot t)]
      have hbefore : ∀ t, beforeName x (f.left ++ node f.name t f.right) =
          f.left ++ node f.name t l := fun t => by
        rw [hsplit, beforeName_append_cons (hnot t)]
      by_cases hxs : xs = []
      · refine .inl ⟨off + entriesSize f.left + (f.name.length + 5 + entriesSize l), ?_, fun t => ?_⟩
        · have : entriesSize l ≤ entriesSize f.right := by
            rw [hr, entriesSize_append]
            omega
          omega
        · simp [offAt, hfind, hbefore, hxs]
          omega
      · generalize hbase : off + (frameSize f + 5) + (belowSize f.left + belowSize l) = base
        have hoffAt : ∀ t, offAt off (f.left ++ node f.name t f.right) (x :: xs) =
            offAt (base + treeSize t) e.kids xs := fun t => by
          simp only [offAt, hfind, hbefore, hrun, hxs, if_false, belowSize_append, belowSize_node]
          congr 1
          omega
        rcases offAt_cases base e.kids hxs with hnone | ⟨z, hle, -, hz⟩
        · exact .inl ⟨0, by omega, fun t => by rw [hoffAt, hnone]⟩
        · exact .inr ⟨z, by omega, fun t => by rw [hoffAt, hz]⟩

/-- Where an entry outside the hole of a context stands. -/
theorem offAt_plug_outside {c : List (Frame Bytes)} (hc : Fits c) {base : ℕ} (hbase : 0 < base)
    {q : List Bytes} (hout : ∀ s, s ≠ [] → q ≠ path c ++ s) :
    (∃ z < runPos base c, ∀ t, offAt base (plug c t) q = z) ∨
    (∃ z, runPos base c ≤ z ∧ ∀ t, offAt base (plug c t) q = z + treeSize t) := by
  induction c with
  | nil =>
    left
    obtain rfl : q = [] := by
      by_contra hq
      exact hout q hq rfl
    exact ⟨0, hbase, fun t => rfl⟩
  | cons f c ih =>
    have hfits : Fits c := fun g hg => hc g (by simp [hg])
    have hrun := runPos_cons base f c
    by_cases hin : ∃ s, s ≠ [] ∧ q = path c ++ s
    · obtain ⟨s, hs, rfl⟩ := hin
      obtain ⟨x, xs, rfl⟩ := List.exists_cons_of_ne_nil hs
      have hx : x = f.name → xs = [] := by
        rintro rfl
        by_contra hxs
        exact hout xs hxs (by simp)
      have hle := base_le_runPos base c
      rcases offAt_frame (hc f (by simp)) (show 0 < runPos base c by omega) hx with
        ⟨z, hz, heq⟩ | ⟨z, hz, heq⟩
      · refine .inl ⟨z, by omega, fun t => ?_⟩
        rw [plug_cons, offAt_plug hfits _ _ hs, heq]
      · refine .inr ⟨z, by omega, fun t => ?_⟩
        rw [plug_cons, offAt_plug hfits _ _ hs, heq]
    · push Not at hin
      rcases ih hfits hin with ⟨z, hz, heq⟩ | ⟨z, hz, heq⟩
      · exact .inl ⟨z, by omega, fun t => by rw [plug_cons, heq]⟩
      · refine .inr ⟨z + wrapSize f 0, ?_, fun t => ?_⟩
        · rw [wrapSize_eq]
          omega
        · rw [plug_cons, heq, treeSize_wrap, wrapSize_eq, wrapSize_eq]
          omega

/-- The kids of a directory open a gap as large as their image. -/
theorem opened_kids {c : List (Frame Bytes)} (hc : Fits c) {base : ℕ} (hbase : 0 < base)
    {q : List Bytes} (hout : ∀ s, s ≠ [] → q ≠ path c ++ s) (k : Tree) :
    Opened (runPos base c) (treeSize k) (offAt base (plug c .nil) q) (offAt base (plug c k) q) := by
  rcases offAt_plug_outside hc hbase hout with ⟨z, hz, heq⟩ | ⟨z, hz, heq⟩
  · exact .inl ⟨by rwa [heq], by rw [heq, heq]⟩
  · exact .inr ⟨by rw [heq]; omega, by rw [heq, heq, treeSize_nil, Nat.add_zero]⟩

theorem belowSize_single {e : Entry Bytes} (he : e.kids = .nil) (n : Bytes) :
    belowSize (cons n e .nil) = 0 := by
  cases e with
  | leaf => rfl
  | node k =>
    obtain rfl : k = .nil := he
    rfl

/-- The bytes of an entry, with the parent tag of its run when it has no siblings. -/
def gapSize (n : Bytes) (e : Entry Bytes) (siblings : Tree) : ℕ :=
  entriesSize (cons n e .nil) + if siblings = .nil then 5 else 0

/-- An entry without kids opens a gap in its run: entries behind it in the run and everything behind
the run stand further on. -/
theorem opened_sibling {l r : Tree} {n : Bytes} {e : Entry Bytes} (he : e.kids = .nil)
    (hl : n ∉ l.names) (hr : n ∉ r.names) (off : ℕ) {q : List Bytes} (hq : q ≠ []) {e' : Entry Bytes}
    (hentry : (l ++ r).entryAt q = some e') :
    Opened (off + entriesSize l) (entriesSize (cons n e .nil)) (offAt off (l ++ r) q)
      (offAt off (l ++ cons n e r) q) := by
  obtain ⟨x, xs, rfl⟩ := List.exists_cons_of_ne_nil hq
  obtain ⟨e₁, hfind⟩ : ∃ e₁, (l ++ r).find? x = some e₁ := by
    cases hfind : (l ++ r).find? x with
    | none => simp [entryAt, hfind] at hentry
    | some e₁ => exact ⟨e₁, rfl⟩
  have hx : n ≠ x := by
    rintro rfl
    have hnone : n ∉ (l ++ r).names := by simp [hl, hr]
    rw [(find?_eq_none_iff _ _).mpr hnone] at hfind
    simp at hfind
  have hfind' : (l ++ cons n e r).find? x = some e₁ := by
    rw [find?_append, find?_cons, if_neg hx, ← find?_append, hfind]
  have hbelow := belowSize_single he n
  have hsplit : l ++ cons n e r = l ++ (cons n e .nil ++ r) := by rw [cons_append, nil_append]
  have hne : l ++ r ≠ .nil := by
    intro h
    simp [h, find?] at hfind
  have hrun : runSize (l ++ cons n e r) = runSize (l ++ r) + entriesSize (cons n e .nil) := by
    rw [runSize_of_ne_nil hne, runSize_of_ne_nil (append_cons_ne_nil l r n e), hsplit,
      entriesSize_append, entriesSize_append, entriesSize_append]
    omega
  -- the siblings before `x`, without the entry and with it
  obtain ⟨y, y', hy, hy', hys, hcase⟩ : ∃ y y', beforeName x (l ++ r) = y ∧
      beforeName x (l ++ cons n e r) = y' ∧ belowSize y' = belowSize y ∧
      ((entriesSize y < entriesSize l ∧ y' = y) ∨ (entriesSize l ≤ entriesSize y ∧
        entriesSize y' = entriesSize y + entriesSize (cons n e .nil))) := by
    rw [find?_append] at hfind
    cases hleft : l.find? x with
    | some e₂ =>
      obtain ⟨l₁, l₂, rfl, hxl⟩ := exists_of_find?_eq_some hleft
      refine ⟨l₁, l₁, ?_, ?_, rfl, .inl ⟨?_, rfl⟩⟩
      · rw [append_assoc, cons_append, beforeName_append_cons hxl]
      · rw [append_assoc, cons_append, beforeName_append_cons hxl]
      · have hpos : entriesSize (cons x e₂ l₂) ≠ 0 := by
          rw [ne_eq, entriesSize_eq_zero_iff]
          exact cons_ne_nil x e₂ l₂
        rw [entriesSize_append]
        omega
    | none =>
      rw [hleft, Option.none_or] at hfind
      obtain ⟨r₁, r₂, rfl, hxr⟩ := exists_of_find?_eq_some hfind
      have hxl : x ∉ l.names := (find?_eq_none_iff _ _).mp hleft
      refine ⟨l ++ r₁, l ++ cons n e r₁, ?_, ?_, ?_, .inr ⟨?_, ?_⟩⟩
      · rw [← append_assoc, beforeName_append_cons (by simp [hxl, hxr])]
      · rw [← cons_append, ← append_assoc]
        refine beforeName_append_cons ?_
        cases e <;> simp [hxl, hxr, Ne.symm hx]
      · rw [show cons n e r₁ = cons n e .nil ++ r₁ by rw [cons_append, nil_append]]
        simp only [belowSize_append, hbelow]
        omega
      · rw [entriesSize_append]
        omega
      · rw [show cons n e r₁ = cons n e .nil ++ r₁ by rw [cons_append, nil_append]]
        simp only [entriesSize_append]
        omega
  by_cases hxs : xs = []
  · simp only [offAt, hfind, hfind', hxs, if_true, hy, hy']
    rcases hcase with ⟨hlt, rfl⟩ | ⟨hle, hsize⟩
    · exact .inl ⟨by omega, rfl⟩
    · exact .inr ⟨by omega, by omega⟩
  · have hkids : e₁.kids.entryAt xs = some e' := by
      simp only [entryAt, hfind] at hentry
      cases e₁ with
      | leaf => simp [hxs] at hentry
      | node k => exact hentry
    simp only [offAt, hfind, hfind', hxs, if_false, hy, hy', hys, hrun]
    have hle := le_offAt (off + runSize (l ++ r) + belowSize y) hkids hxs
    have hrun' := runSize_of_ne_nil hne
    rw [entriesSize_append] at hrun'
    refine .inr ⟨by omega, ?_⟩
    rw [← offAt_add _ _ hkids hxs]
    congr 1
    omega

/-- The gap that an entry without kids opens, which has its run's parent tag in it when the entry is
the only one. -/
theorem opened_entry {c : List (Frame Bytes)} (hc : Fits c) {base : ℕ} (hbase : 0 < base)
    {l r : Tree} {n : Bytes} {e : Entry Bytes} (he : e.kids = .nil) (hl : n ∉ l.names)
    (hr : n ∉ r.names) {q : List Bytes} (hq : q ≠ []) {e' : Entry Bytes}
    (hentry : (plug c (l ++ r)).entryAt q = some e') :
    Opened (runPos base c + entriesSize l) (gapSize n e (l ++ r)) (offAt base (plug c (l ++ r)) q)
      (offAt base (plug c (l ++ cons n e r)) q) := by
  have hle := base_le_runPos base c
  by_cases hin : ∃ s, s ≠ [] ∧ q = path c ++ s
  · obtain ⟨s, hs, rfl⟩ := hin
    rw [entryAt_plug hc] at hentry
    have hne : l ++ r ≠ .nil := by
      intro h
      obtain ⟨x, xs, rfl⟩ := List.exists_cons_of_ne_nil hs
      simp [h, entryAt, find?] at hentry
    rw [gapSize, if_neg hne, offAt_plug hc _ _ hs, offAt_plug hc _ _ hs, Nat.add_zero]
    exact opened_sibling he hl hr _ hs hentry
  · push Not at hin
    have hsize : treeSize (l ++ cons n e r) = treeSize (l ++ r) + gapSize n e (l ++ r) := by
      have hbelow := belowSize_single he n
      rw [gapSize, treeSize_of_ne_nil (append_cons_ne_nil l r n e),
        show cons n e r = cons n e .nil ++ r by rw [cons_append, nil_append]]
      by_cases hne : l ++ r = .nil
      · rw [if_pos hne, hne, treeSize_nil]
        have hl' := congrArg entriesSize hne
        have hb' := congrArg belowSize hne
        simp only [entriesSize_append, belowSize_append, entriesSize_nil, belowSize_nil, hbelow]
          at hl' hb' ⊢
        omega
      · rw [if_neg hne, treeSize_of_ne_nil hne]
        simp only [entriesSize_append, belowSize_append, hbelow]
        omega
    have hin' : entriesSize l ≤ treeSize (l ++ r) := by
      by_cases hne : l ++ r = .nil
      · have hl' := congrArg entriesSize hne
        simp only [entriesSize_append, entriesSize_nil] at hl'
        omega
      · rw [treeSize_of_ne_nil hne, entriesSize_append]
        omega
    rcases offAt_plug_outside hc hbase hin with ⟨z, hz, heq⟩ | ⟨z, hz, heq⟩
    · exact .inl ⟨by rw [heq]; omega, by rw [heq, heq]⟩
    · exact .inr ⟨by rw [heq]; omega, by rw [heq, heq, hsize]; omega⟩

end DeepinAnything
