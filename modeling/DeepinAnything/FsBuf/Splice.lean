import DeepinAnything.FsBuf.Rename

/-!
# Putting copied bytes below a directory (`do_rename_path`)

The bytes that `COPY_TREE` takes out of an image hold relative offsets only. Where they are put back they
mean the same, but for the tag that leads from their first block to the directory above it.
-/

namespace DeepinAnything

open ByteMem OrderedForest OrderedForest.Forest

/-! ## The bytes of an image stay the same -/

/-- Only the tag behind the first block knows where the image stands. -/
theorem getElem?_treeBytes {t : Tree} (ht : t ≠ .nil) (up up' : ℕ) {i : ℕ}
    (hi : i < entriesSize t + 1 ∨ entriesSize t + 5 ≤ i) : (treeBytes up t)[i]? = (treeBytes up' t)[i]? := by
  have hsplit : ∀ up, treeBytes up t =
      (entriesBytes 0 t ++ [0]) ++ (le32 (4 * up + fsTagDir) ++ belowBytes 0 t) := fun up => by
    simp [treeBytes, runBytes, ht]
  have hlen : (entriesBytes 0 t ++ [0]).length = entriesSize t + 1 := by
    rw [List.length_append, length_entriesBytes, List.length_singleton]
  have htag : ∀ up, (le32 (4 * up + fsTagDir)).length = 4 := fun up => rfl
  rw [hsplit up, hsplit up']
  generalize entriesBytes 0 t ++ [0] = entries at hlen
  rcases hi with hi | hi
  · rw [List.getElem?_append_left (by omega), List.getElem?_append_left (by omega)]
  · have hbehind : ∀ up, (entries ++ (le32 (4 * up + fsTagDir) ++ belowBytes 0 t))[i]? =
        (belowBytes 0 t)[i - entries.length - 4]? := fun up => by
      rw [List.getElem?_append_right (by omega), List.getElem?_append_right (by rw [htag]; omega), htag]
    rw [hbehind, hbehind]

theorem IsImage.eq_treeBytes {bs : Bytes} {t : Tree} (h : IsImage bs t) : ∃ up, bs = treeBytes up t := by
  obtain ⟨m, off, up, himage, rfl⟩ := h
  have hload := himage.holds.load_eq
  rw [length_treeBytes] at hload
  exact ⟨up, hload⟩

/-- Wherever the image of a tree stands, its bytes are those of any other image of the tree, but for the tag
behind the first block. -/
theorem IsImage.get_eq {bs : Bytes} {t : Tree} (h : IsImage bs t) (ht : t ≠ .nil) {m : Mem} {off up : ℕ}
    (hm : TreeAt m off up t) {i : ℕ} (hlt : i < bs.length)
    (hi : i < entriesSize t + 1 ∨ entriesSize t + 5 ≤ i) : bs[i]? = some (m.get (off + i)) := by
  have hsize := h.length_eq
  obtain ⟨up', rfl⟩ := h.eq_treeBytes
  have hin : i < (treeBytes up t).length := by rw [length_treeBytes]; omega
  rw [getElem?_treeBytes ht up' up hi, List.getElem?_eq_getElem hin, hm.holds.get hin]

namespace FsBuf

/-! ## What `COPY_TREE` takes -/

/-- The bytes that `do_remove_path` copies are the image of what is below the directory. -/
theorem isImage_of_doRemovePath {b : FsBuf} {root p K : Bytes} {t k : Tree} {q : List Bytes}
    (h : Represents b root t) (hres : resolve root t p = some q) (hkids : t.kidsAt q = some k)
    {malloc : ℕ → Bool} {changes : List FsChange}
    (hcopy : (b.doRemovePath malloc p changes true).map (fun r => (r.1, r.2.2.2)) = some (.ok, some K)) :
    IsImage K k := by
  rcases h.lookup_cases p with ⟨hnone, -⟩ | ⟨hroot, hoff⟩ | ⟨c, l, r, n, e, rfl, hc, hl, hat, hoff⟩
  · simp [hnone] at hres
  · -- the whole tree
    obtain rfl : [] = q := Option.some.inj (hroot.symm.trans hres)
    obtain rfl : t = k := Option.some.inj hkids
    have htail := h.tail_eq
    have hmax := h.sized.tail_le_max
    have hsize : subU32 b.tail b.firstNameOff = treeSize t := by
      rw [subU32_of_le (by omega) (by omega)]
      omega
    rw [doRemovePath] at hcopy
    simp only [hoff, show dataStart ≠ 0 by simp [dataStart], if_false, if_true, copyTree, hsize] at hcopy
    by_cases hmalloc : malloc (treeSize t) = true
    · rw [if_pos hmalloc] at hcopy
      obtain rfl : b.head.load b.firstNameOff (treeSize t) = K := by simpa using hcopy
      exact ⟨_, _, _, h.image, rfl⟩
    · rw [if_neg hmalloc] at hcopy
      simp at hcopy
  · obtain rfl : path c ++ [n] = q := Option.some.inj (hat.symm.trans hres)
    obtain rfl : e = .node k := by
      rw [kidsAt, entryAt_plug_cons hc e hl] at hkids
      cases e with
      | leaf => cases hkids
      | node k' => exact congrArg Entry.node (Option.some.inj hkids)
    rcases doRemovePath_entry h hoff malloc changes true with
      ⟨-, -, -, heq⟩ | ⟨-, b', kidsTree, heq, -, -, hcopied, hnone⟩
    · simp [heq] at hcopy
    obtain rfl : kidsTree = some K := by simpa [heq] using hcopy
    by_cases hk : k = .nil
    · cases hnone (.inr hk)
    · obtain ⟨bs, hbs, himage⟩ := hcopied rfl hk
      obtain rfl := Option.some.inj hbs
      exact himage

/-- What is below a directory of an image is itself a forest of names, and no larger than the image. -/
theorem kidsAt_bounds {b : FsBuf} {root : Bytes} {t k : Tree} {q : List Bytes} (h : Represents b root t)
    (hkids : t.kidsAt q = some k) : k.Valid NameOk ∧ treeSize k < 2 ^ 31 := by
  have hentry : t.entryAt q = some (.node k) := by
    rw [kidsAt] at hkids
    split at hkids
    · rename_i hnode
      rw [hnode, Option.some.inj hkids]
    · cases hkids
  obtain ⟨c, rfl, -, -⟩ := exists_plug_of_entryAt_node hentry
  have hin := runPos_add_le b.firstNameOff c (treeSize k)
  have hfit := h.fits
  rw [treeSize_plug] at hfit
  exact ⟨Valid.of_plug h.valid, by omega⟩

/-- The directory without kids at a path, in its context. -/
theorem exists_plug_of_childless {t : Tree} {q : List Bytes} (hq : q ≠ []) (hd : t.entryAt q = some (.node .nil))
    (base : ℕ) :
    ∃ f c, t = plug (f :: c) .nil ∧ path (f :: c) = q ∧ Fits (f :: c) ∧ offAt base t q = ownerPos base f c := by
  obtain ⟨c, rfl, rfl, hc⟩ := exists_plug_of_entryAt_node hd
  cases c with
  | nil => exact absurd rfl hq
  | cons f c =>
    have hf : f.name ∉ f.left.names := hc f List.mem_cons_self
    have hc' : Fits c := fun g hg => hc g (List.mem_cons_of_mem _ hg)
    refine ⟨f, c, rfl, rfl, hc, ?_⟩
    rw [path_cons, plug_cons, ← cons_node, offAt_plug_cons hc' _ hf]
    rfl

/-! ## The splice -/

/-- The bytes below a directory of one image are put below a directory without kids of another one. Unless
there is no memory for them, the other image is then that of its tree with the forest of the first directory
below the second; every other entry has the path and the kind it had, and the bytes are as they were but
for the one tag that leads out of them. -/
theorem spliceTree_attaches {b : FsBuf} {root : Bytes} {t : Tree} (h : Represents b root t) {q : List Bytes}
    (hq : q ≠ []) (hd : t.entryAt q = some (.node .nil)) {b₀ : FsBuf} {root₀ p₀ K : Bytes} {t₀ k : Tree}
    (h₀ : Represents b₀ root₀ t₀) {q₀ : List Bytes} (hres : resolve root₀ t₀ p₀ = some q₀)
    (hkids : t₀.kidsAt q₀ = some k) (hk : k ≠ .nil) {malloc : ℕ → Bool} {changes₀ : List FsChange}
    (hcopy : (b₀.doRemovePath malloc p₀ changes₀ true).map (fun r => (r.1, r.2.2.2)) = some (.ok, some K))
    (reallocTree : ℕ → Bool) (changes : List FsChange) :
    (GrowthFails b reallocTree K.length ∧
      b.spliceTree reallocTree (offAt b.firstNameOff t q) K changes = some (.noMem, b, changes)) ∨
    (¬ GrowthFails b reallocTree K.length ∧ ∃ b' kidsOff,
      b.spliceTree reallocTree (offAt b.firstNameOff t q) K changes =
        some (.ok, b', changes ++ [⟨kidsOff, K.length⟩]) ∧
      Represents b' root (t.setKids q k) ∧
      (∀ p, (t.setKids q k).kindAt p = if q <+: p then k.kindAt (p.drop q.length) else t.kindAt p) ∧
      b'.getKidsOffset (offAt b.firstNameOff t q) = kidsOff ∧
      ∀ i < K.length, i < entriesSize k + 1 ∨ entriesSize k + 5 ≤ i →
        K[i]? = some (b'.head.get (kidsOff + i))) := by
  have himage := isImage_of_doRemovePath h₀ hres hkids hcopy
  -- the bytes are a part of an image, so there are not too many of them
  obtain ⟨hvalid, hlen⟩ := kidsAt_bounds h₀ hkids
  have hkind := kindAt_setKids hd k
  obtain ⟨f, c, rfl, rfl, hc, hoff⟩ := exists_plug_of_childless hq hd b.firstNameOff
  rw [hoff, himage.length_eq]
  rw [setKids_plug hc] at hkind ⊢
  refine (spliceTree_spec h himage hk hvalid hlen rfl reallocTree changes).imp_right ?_
  rintro ⟨hroom, b', hsplice, hrep⟩
  have hfirst : b'.firstNameOff = b.firstNameOff := hrep.first_eq.trans h.first_eq.symm
  have hkidsOff : b'.getKidsOffset (ownerPos b.firstNameOff f c) = runPos b.firstNameOff (f :: c) := by
    have hrep' : Represents b' root (plug c (f.left ++ cons f.name (.node k) f.right)) := hrep
    have hread := hrep'.entryFacts.kidsOff
    rwa [hfirst, Entry.kids, if_neg hk] at hread
  have himage' := ((treeAt_plug _ (f :: c) k).mp hrep.image).2
  rw [hfirst] at himage'
  refine ⟨hroom, b', _, hsplice, hrep, hkind, hkidsOff, fun i hlt hi => ?_⟩
  exact himage.get_eq hk himage' (by rw [himage.length_eq]; exact hlt) hi

/-- A directory `e` with a file `y`. -/
def splicedKids : Tree := .node [101] (.leaf [121] .nil) .nil

/-- The directory `/d` with the given kids, and `/c/x`. -/
def targetTree (k : Tree) : Tree := .node [100] k (.node [99] (.leaf [120] .nil) .nil)

/-- `/a/e/y` and `/b`. -/
def sourceTree : Tree := .node [97] splicedKids (.leaf [98] .nil)

/-- What is below `/a` in one image comes below the empty `/d` in the other. -/
theorem spliceTree_attaches_sample :
    ∃ b' kidsOff, (imageBuf [47] (targetTree .nil) 4096).spliceTree (fun _ => true) 10
        [101, 0, 37, 0, 0, 0, 0, 85, 0, 0, 0, 121, 0, 0, 0, 61, 0, 0, 0] [] =
        some (.ok, b', [⟨kidsOff, 19⟩]) ∧
      Represents b' [47] (targetTree splicedKids) := by
  have htarget : Represents (imageBuf [47] (targetTree .nil) 4096) [47] (targetTree .nil) :=
    represents_imageBuf _ _ 4096 ⟨rfl, rfl, by decide⟩ (by decide) (by decide) (by decide)
  have hsource : Represents (imageBuf [47] sourceTree 64) [47] sourceTree :=
    represents_imageBuf _ _ 64 ⟨rfl, rfl, by decide⟩ (by decide) (by decide) (by decide)
  have hd : (targetTree .nil).entryAt [[100]] = some (.node .nil) := by decide
  have hres : resolve [47] sourceTree [47, 97] = some [[97]] := by decide
  have hkids : sourceTree.kidsAt [[97]] = some splicedKids := by decide
  have hcopy : ((imageBuf [47] sourceTree 64).doRemovePath (fun _ => true) [47, 97] [] true).map
      (fun r => (r.1, r.2.2.2)) =
      some (.ok, some [101, 0, 37, 0, 0, 0, 0, 85, 0, 0, 0, 121, 0, 0, 0, 61, 0, 0, 0]) := by decide +kernel
  rcases spliceTree_attaches htarget (by simp) hd hsource hres hkids (by simp [splicedKids]) hcopy
    (fun _ => true) [] with ⟨hfail, -⟩ | ⟨-, b', kidsOff, hsplice, hrep, -⟩
  · exact absurd hfail (by decide +kernel)
  · exact ⟨b', kidsOff, hsplice, hrep⟩

end FsBuf

end DeepinAnything
