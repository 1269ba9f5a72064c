import DeepinAnything.FsBuf.WellFormed

/-!
# Ranges and searches

`get_path_range` says which bytes of the buffer belong to what is below a path, and `search_files`
goes through the names of a range. A search that starts at a name meets the names of the image one
after the other; `Names` is that list, with an empty name for each parent tag.
-/

namespace DeepinAnything

open ByteMem OrderedForest OrderedForest.Forest

namespace FsBuf

variable (b : FsBuf)

/-! ## The functions -/

/-- `get_path_range`: the offset of a path and the range of what is below it, if the path is found.
A file or a directory without kids has no range: its start is 0, and the end is then read off the
eight bytes before the root path, which hold no names. -/
def getPathRange (path : Bytes) : Option (ℕ × ℕ × ℕ) :=
  let pathOff := b.getPathOffset path
  if pathOff ≠ 0 then
    if pathOff = dataStart then some (pathOff, b.firstNameOff, b.tail)
    else
      let startOff := b.getKidsOffset pathOff
      some (pathOff, startOff, b.getTreeEndOffset startOff)
  else none

/-- The loop of `search_files`: where it has stopped, and the results. `comparator` says whether a
name matches and `pcf` whether to stop; it is given the number of results and the name, that is where it
stands and its bytes. -/
def searchFilesLoop (comparator : Bytes → Bool) (pcf : ℕ → ℕ → Bytes → Bool) (minOff size : ℕ) :
    ℕ → ℕ → List ℕ → ℕ × List ℕ
  | 0, nameOff, results => (nameOff, results)
  | fuel + 1, nameOff, results =>
    if nameOff < minOff ∧ results.length < size then
      let name := b.strAt nameOff
      if pcf results.length nameOff name then (nameOff, results)
      else
        searchFilesLoop comparator pcf minOff size fuel (b.nextName nameOff)
          (if b.head.get nameOff ≠ 0 ∧ comparator name then results ++ [nameOff] else results)
    else (nameOff, results)

/-- `search_files` with room for `size` results: where the next search has to start, and the
results. -/
def searchFiles (startOff endOff size : ℕ) (comparator : Bytes → Bool) (pcf : ℕ → ℕ → Bytes → Bool) :
    ℕ × List ℕ :=
  let minOff := if b.tail > endOff then endOff else b.tail
  b.searchFilesLoop comparator pcf minOff size b.tail startOff []

/-! ## The names of an image -/

/-- `next_name` leads through the names `xs`, given with their offsets, from `off` to `stop`. -/
def Names : ℕ → List (ℕ × Bytes) → ℕ → Prop
  | off, [], stop => off = stop
  | off, x :: xs, stop =>
    x.1 = off ∧ b.strAt off = x.2 ∧ (b.head.get off = 0 ↔ x.2 = []) ∧ off < b.nextName off ∧
      Names (b.nextName off) xs stop

variable {b}

theorem Names.append {off mid stop : ℕ} {xs ys : List (ℕ × Bytes)} (hx : b.Names off xs mid)
    (hy : b.Names mid ys stop) : b.Names off (xs ++ ys) stop := by
  induction xs generalizing off with
  | nil =>
    obtain rfl : off = mid := hx
    exact hy
  | cons x xs ih => exact ⟨hx.1, hx.2.1, hx.2.2.1, hx.2.2.2.1, ih hx.2.2.2.2⟩

theorem Names.le {off stop : ℕ} {xs : List (ℕ × Bytes)} (h : b.Names off xs stop) :
    off + xs.length ≤ stop := by
  induction xs generalizing off with
  | nil => exact Nat.le_of_eq h
  | cons x xs ih =>
    have hle := ih h.2.2.2.2
    have hlt := h.2.2.2.1
    rw [List.length_cons]
    omega

end FsBuf

/-- The names of a block and the empty name at its parent tag. -/
def Block.names (B : Block) : List (ℕ × Bytes) :=
  B.entries.map (fun e => (e.off, e.name)) ++ [(B.stop, [])]

variable {b : FsBuf}

theorem RawEntry.Stands.nextName {e : RawEntry} (h : e.Stands b.head) (hlt : e.stop ≤ b.capacity) :
    b.strAt e.off = e.name ∧ b.head.get e.off ≠ 0 ∧ b.nextName e.off = e.stop := by
  have hstop : e.stop = e.off + e.name.length + 1 + e.tagBytes.length := rfl
  have hstr : b.strAt e.off = e.name := FsBuf.strAt_of_holds h.bytes h.zero (by omega)
  have htag := (((Mem.holds_append _ _ _).mp h.bytes).2).2
  refine ⟨hstr, ?_, ?_⟩
  · obtain ⟨c, cs, hc⟩ := List.exists_cons_of_ne_nil h.name_ne
    have hbytes := h.bytes
    rw [hc] at hbytes
    rw [hbytes.1]
    exact fun h0 => h.zero (by simp [hc, h0])
  · simp only [FsBuf.nextName, FsBuf.strlen, hstr]
    cases hkids : e.kids with
    | none =>
      rw [RawEntry.tagBytes, hkids] at htag hstop
      rw [if_pos htag.1, hstop]
      rfl
    | some k =>
      rw [RawEntry.tagBytes, hkids] at htag hstop
      rw [htag.1, if_neg (FsBuf.ofNat_dirTag_ne_zero _), hstop]
      rfl

theorem EntriesStand.names {off stop : ℕ} {es : List RawEntry} (h : EntriesStand b.head off es stop)
    (hlt : stop ≤ b.capacity) : b.Names off (es.map fun e => (e.off, e.name)) stop := by
  induction es generalizing off with
  | nil => exact h
  | cons e es ih =>
    obtain ⟨rfl, hstands, hes⟩ := h
    have hle := hes.increasing.1
    obtain ⟨hstr, hget, hnext⟩ := hstands.nextName (by omega)
    refine ⟨rfl, hstr, iff_of_false hget hstands.name_ne, ?_, ?_⟩
    · rw [hnext]
      exact e.off_lt_stop
    · rw [hnext]
      exact ih hes

theorem Tiles.names {off stop : ℕ} {bs : List Block} (h : Tiles b.head off bs stop)
    (hlt : stop ≤ b.capacity) : b.Names off (bs.flatMap Block.names) stop := by
  induction bs generalizing off with
  | nil => exact h
  | cons B bs ih =>
    obtain ⟨rfl, hB, hbs⟩ := h
    have hle := hbs.add_le
    have hstr : b.strAt B.stop = [] :=
      FsBuf.strAt_of_holds (n := []) hB.up (by simp) (by simp only [List.length_nil]; omega)
    have hnext : b.nextName B.stop = B.stop + 5 := by
      have htag := hB.up.2.1
      simp only [FsBuf.nextName, FsBuf.strlen, hstr, List.length_nil, Nat.add_zero]
      rw [htag, if_neg (FsBuf.ofNat_dirTag_ne_zero _)]
    rw [List.flatMap_cons]
    refine FsBuf.Names.append (FsBuf.Names.append (hB.entries.names (by omega)) ?_) (ih hbs)
    exact ⟨rfl, hstr, iff_of_true hB.up.1 rfl, by omega, hnext⟩

/-- What is below a directory ends where the image of its kids ends. -/
theorem Represents.getTreeEndOffset_kids {root n : Bytes} {c : List (Frame Bytes)} {l k r : Tree}
    (h : Represents b root (plug c (l ++ cons n (.node k) r))) (hk : k ≠ .nil) :
    b.getTreeEndOffset (runPos b.firstNameOff (⟨l, n, r⟩ :: c)) =
      runPos b.firstNameOff (⟨l, n, r⟩ :: c) + treeSize k := by
  have hplug : Represents b root (plug (⟨l, n, r⟩ :: c) k) := h
  have htail := hplug.tail_eq
  have hin := runPos_add_le b.firstNameOff (⟨l, n, r⟩ :: c) (treeSize k)
  rw [treeSize_plug] at htail
  exact FsBuf.getTreeEndOffset_eq hplug.sized ((treeAt_plug _ _ _).mp hplug.image).2 hk
    (Valid.of_plug hplug.valid) (by omega)

/-- The range of an entry starts where its kids start. -/
theorem Represents.getPathRange_entry {root : Bytes} {c : List (Frame Bytes)} {l r : Tree} {n p : Bytes}
    {e : Entry Bytes} (h : Represents b root (plug c (l ++ cons n e r)))
    (hoff : b.getPathOffset p = runPos b.firstNameOff c + entriesSize l) :
    b.getPathRange p = some (runPos b.firstNameOff c + entriesSize l,
      b.getKidsOffset (runPos b.firstNameOff c + entriesSize l),
      b.getTreeEndOffset (b.getKidsOffset (runPos b.firstNameOff c + entriesSize l))) := by
  have hpos := h.entryFacts.pos
  rw [FsBuf.getPathRange, hoff]
  simp only [show runPos b.firstNameOff c + entriesSize l ≠ 0 by omega, ne_eq, not_false_eq_true, if_true,
    show ¬ runPos b.firstNameOff c + entriesSize l = dataStart by omega, if_false]

/-- The range of what has no kids starts at 0, and its end is read off the bytes from there on. -/
theorem Represents.getPathRange_childless {root n p : Bytes} {c : List (Frame Bytes)} {l r : Tree} {e : Entry Bytes}
    (h : Represents b root (plug c (l ++ cons n e r))) (hkids : e.kids = .nil)
    (hoff : b.getPathOffset p = runPos b.firstNameOff c + entriesSize l) :
    b.getPathRange p = some (runPos b.firstNameOff c + entriesSize l, 0, b.getTreeEndOffset 0) := by
  have hkidsOff := h.entryFacts.kidsOff
  rw [if_pos hkids] at hkidsOff
  rw [h.getPathRange_entry hoff, hkidsOff]

/-- All names of an image, in the order of their bytes. -/
def imageNames (base : ℕ) (t : Tree) : List (ℕ × Bytes) :=
  if t = .nil then [] else (imageBlocks base t).flatMap Block.names

theorem Represents.names {root : Bytes} {t : Tree} (h : Represents b root t) :
    b.Names b.firstNameOff (imageNames b.firstNameOff t) b.tail := by
  rw [imageNames]
  split
  · rename_i ht
    exact (h.tail_eq_first_iff.mpr ht).symm
  · rename_i ht
    exact (h.tiles ht).names h.sized.tail_le

end DeepinAnything
