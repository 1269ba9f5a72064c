import DeepinAnything.FsBuf.RuleSearch

/-!
# The range of a path

`get_path_range` gives the bytes in which everything below a directory stands. The entries in the range
of a directory are the entries whose path goes through it, and no others.
-/

namespace DeepinAnything

open ByteMem OrderedForest OrderedForest.Forest

variable {b : FsBuf} {root : Bytes}

namespace Represents

/-- All entries of an image and its parent tags can be searched. -/
theorem searchable {t : Tree} (h : Represents b root t) :
    Searchable b (treeItems b.firstNameOff [] t) b.firstNameOff b.tail := by
  rw [h.tail_eq]
  exact h.image.searchable h.sized h.valid h.tail_eq.ge

/-- Every entry is an item of the image, at the offset where its address leads. -/
theorem exists_item_of_entryAt {t : Tree} (h : Represents b root t) {q : List Bytes} {e : Entry Bytes}
    (hq : q ≠ []) (hentry : t.entryAt q = some e) :
    ∃ x ∈ treeItems b.firstNameOff [] t, x.name ≠ [] ∧ x.path = q ∧ x.off = offAt b.firstNameOff t q := by
  obtain ⟨x, hx, hname, hpath⟩ := (mem_items_iff (c := []) h q).mpr ⟨hq, by simp [hentry]⟩
  rw [path_nil, List.nil_append] at hpath
  refine ⟨x, hx, hname, hpath, ?_⟩
  rw [(off_eq (c := []) h hx hname).1, hpath]
  rfl

theorem getPathRange_root {p : Bytes} (hoff : b.getPathOffset p = dataStart) :
    b.getPathRange p = some (dataStart, b.firstNameOff, b.tail) := by
  rw [FsBuf.getPathRange, hoff]
  simp [dataStart]

/-- The range of the root holds every entry. -/
theorem offAt_mem_root {t : Tree} (h : Represents b root t) {q : List Bytes} {e : Entry Bytes} (hq : q ≠ [])
    (hentry : t.entryAt q = some e) :
    b.firstNameOff ≤ offAt b.firstNameOff t q ∧ offAt b.firstNameOff t q < b.tail := by
  obtain ⟨x, hx, -, -, hxoff⟩ := h.exists_item_of_entryAt hq hentry
  rw [← hxoff]
  exact h.searchable.chain.range hx

/-- The range of a directory with kids is the range of its item. -/
theorem getPathRange_dir {c : List (Frame Bytes)} {l k r : Tree} {n p : Bytes}
    (h : Represents b root (plug c (l ++ cons n (.node k) r))) (hk : k ≠ .nil)
    (hoff : b.getPathOffset p = runPos b.firstNameOff c + entriesSize l) :
    b.getPathRange p = some (runPos b.firstNameOff c + entriesSize l,
      b.getKidsOffset (runPos b.firstNameOff c + entriesSize l),
      b.getTreeEndOffset (b.getKidsOffset (runPos b.firstNameOff c + entriesSize l))) ∧
    b.getKidsOffset (runPos b.firstNameOff c + entriesSize l) ≠ 0 := by
  have hkids := h.entryFacts.kidsOff
  have hfirst := h.first_pos
  have hle := base_le_runPos b.firstNameOff (⟨l, n, r⟩ :: c)
  rw [Entry.kids, if_neg hk] at hkids
  exact ⟨h.getPathRange_entry hoff, by omega⟩

/-- What stands in the range of a directory with kids is what the path to it leads through. -/
theorem getPathRange_iff_below {c : List (Frame Bytes)} {l k r : Tree} {n p : Bytes}
    (h : Represents b root (plug c (l ++ cons n (.node k) r))) (hn : n ∉ l.names) (hk : k ≠ .nil)
    (hoff : b.getPathOffset p = runPos b.firstNameOff c + entriesSize l) :
    ∃ off start stop, b.getPathRange p = some (off, start, stop) ∧
      ∀ q e, q ≠ [] → (plug c (l ++ cons n (.node k) r)).entryAt q = some e →
        (start ≤ offAt b.firstNameOff (plug c (l ++ cons n (.node k) r)) q ∧
          offAt b.firstNameOff (plug c (l ++ cons n (.node k) r)) q < stop ↔
            path c ++ [n] <+: q ∧ path c ++ [n] ≠ q) := by
  obtain ⟨hrange, hkids⟩ := h.getPathRange_dir hk hoff
  refine ⟨_, _, _, hrange, fun q e hq hentry => ?_⟩
  have hsearch := h.searchable
  have hc := Fits.of_valid h.valid
  -- the directory itself is an item, and so is the entry
  obtain ⟨y, hy, hyname, hypath, hyoff⟩ :=
    h.exists_item_of_entryAt (by simp) (entryAt_plug_cons hc (.node k) hn)
  obtain ⟨x, hx, -, hxpath, hxoff⟩ := h.exists_item_of_entryAt hq hentry
  rw [offAt_plug_cons hc _ hn] at hyoff
  rw [← hyoff] at hkids ⊢
  obtain ⟨hstart, hstop⟩ := hsearch.reads y hy hyname
  cases hj : y.kids with
  | none => exact absurd (by rw [hstart, hj]; rfl) hkids
  | some j =>
    have hjstart : b.getKidsOffset y.off = j.start := by rw [hstart, hj]; rfl
    have hbelow := hsearch.below_iff hx hy hj
    rw [Item.Below, hxpath, hypath, hxoff] at hbelow
    rw [hjstart, hstop j hj, hbelow]

/-- What `get_path_range` gives for a directory with kids, for the root, and for everything else. -/
theorem getPathRange_spec {t : Tree} (h : Represents b root t) (ht : t ≠ .nil) (p : Bytes) :
    (∀ q k, resolve root t p = some q → t.entryAt q = some (.node k) → k ≠ .nil →
      ∃ off start stop, b.getPathRange p = some (off, start, stop) ∧
        ∀ q' e, q' ≠ [] → t.entryAt q' = some e →
          (start ≤ offAt b.firstNameOff t q' ∧ offAt b.firstNameOff t q' < stop ↔ q <+: q' ∧ q ≠ q')) ∧
    (resolve root t p = some [] → b.getPathRange p = some (dataStart, b.firstNameOff, b.tail)) ∧
    ∀ q e, resolve root t p = some q → t.entryAt q = some e → e.kids = .nil →
      ∃ off stop, b.getPathRange p = some (off, 0, stop) := by
  rcases h.lookup_cases p with ⟨hres, -⟩ | ⟨hres, hoff⟩ | ⟨c, l, r, n, e, rfl, hc, hn, hres, hoff⟩
  · simp [hres]
  · refine ⟨fun q k hq _ _ => ⟨_, _, _, getPathRange_root hoff, fun q' e hq' hentry => ?_⟩,
      fun _ => getPathRange_root hoff,
      fun q e hq hentry hkids => ?_⟩
    · -- everything is below the root
      obtain rfl : [] = q := Option.some.inj (hres.symm.trans hq)
      exact iff_of_true (h.offAt_mem_root hq' hentry) ⟨List.nil_prefix, fun h => hq' h.symm⟩
    · obtain rfl : [] = q := Option.some.inj (hres.symm.trans hq)
      obtain rfl : Entry.node t = e := Option.some.inj hentry
      exact absurd hkids ht
  · have hentry := entryAt_plug_cons hc e hn (r := r)
    have hq : ∀ q, resolve root (plug c (l ++ cons n e r)) p = some q → path c ++ [n] = q :=
      fun q hq => Option.some.inj (hres.symm.trans hq)
    refine ⟨fun q k hq' hentry' hk => ?_, fun hq' => absurd (hq _ hq') (by simp), fun q e' hq' hentry' hkids => ?_⟩
    · obtain rfl := hq q hq'
      obtain rfl : e = .node k := Option.some.inj (hentry.symm.trans hentry')
      exact h.getPathRange_iff_below hn hk hoff
    · obtain rfl := hq q hq'
      obtain rfl : e = e' := Option.some.inj (hentry.symm.trans hentry')
      exact ⟨_, _, h.getPathRange_childless hkids hoff⟩

/-- What is below a directory can be searched. -/
theorem searchable_plug {c : List (Frame Bytes)} {k : Tree} (h : Represents b root (plug c k)) :
    Searchable b (treeItems (runPos b.firstNameOff c) (path c) k) (runPos b.firstNameOff c)
      (runPos b.firstNameOff c + treeSize k) ∧
    runPos b.firstNameOff c + treeSize k ≤ b.tail := by
  have htail := h.tail_eq
  have hin := runPos_add_le b.firstNameOff c (treeSize k)
  rw [treeSize_plug] at htail
  exact ⟨((treeAt_plug _ _ _).mp h.image).2.searchable h.sized (Valid.of_plug h.valid) (by omega), by omega⟩

/-- The range of a directory is the image of what is below it, unless there is none. -/
theorem range_eq {t : Tree} (h : Represents b root t) {p : Bytes} {q : List Bytes} {k : Tree}
    {off start stop : ℕ} (hres : resolve root t p = some q) (hdir : t.entryAt q = some (.node k))
    (hrange : b.getPathRange p = some (off, start, stop)) (hstart : start ≠ 0) :
    ∃ c, t = plug c k ∧ path c = q ∧ start = runPos b.firstNameOff c ∧ stop = start + treeSize k := by
  rcases h.lookup_cases p with ⟨hnone, -⟩ | ⟨hroot, hoff⟩ | ⟨c, l, r, n, e, rfl, hc, hn, hentry, hoff⟩
  · rw [hnone] at hres
    cases hres
  · obtain rfl : [] = q := Option.some.inj (hroot.symm.trans hres)
    obtain rfl : t = k := Entry.node.inj (Option.some.inj hdir)
    rw [getPathRange_root hoff, Option.some.injEq, Prod.mk.injEq, Prod.mk.injEq] at hrange
    exact ⟨[], rfl, rfl, hrange.2.1.symm, by rw [← hrange.2.1, ← hrange.2.2, h.tail_eq]⟩
  · obtain rfl : path c ++ [n] = q := Option.some.inj (hentry.symm.trans hres)
    obtain rfl : e = .node k := Option.some.inj ((entryAt_plug_cons hc e hn).symm.trans hdir)
    have hkids := h.entryFacts.kidsOff
    rw [h.getPathRange_entry hoff, Option.some.injEq, Prod.mk.injEq, Prod.mk.injEq] at hrange
    obtain ⟨-, hfirst, hlast⟩ := hrange
    rw [Entry.kids, hfirst] at hkids
    by_cases hk : k = .nil
    · rw [if_pos hk] at hkids
      exact absurd hkids hstart
    · rw [if_neg hk] at hkids
      rw [hfirst, hkids, h.getTreeEndOffset_kids hk] at hlast
      exact ⟨⟨l, n, r⟩ :: c, rfl, path_cons _ _, hkids, by rw [hkids, hlast]⟩

/-- The file `/d/a` stands in the range of `/d`. -/
theorem getPathRange_spec_sample :
    ∃ off start stop, (imageBuf [47] (.node [100] (.leaf [97] .nil) .nil) 64).getPathRange [47, 100] =
      some (off, start, stop) ∧ start ≤ 21 ∧ 21 < stop := by
  have hrep := represents_imageBuf [47] (.node [100] (.leaf [97] .nil) .nil) 64
    ⟨rfl, rfl, by decide⟩ (by decide) (by decide) (by decide)
  obtain ⟨off, start, stop, hrange, hall⟩ := (getPathRange_spec hrep (by simp) [47, 100]).1 [[100]]
    (.leaf [97] .nil) (by decide) (by decide) (by simp)
  exact ⟨off, start, stop, hrange, (hall [[100], [97]] .leaf (by simp) (by decide)).mpr (by decide)⟩

end Represents

end DeepinAnything
