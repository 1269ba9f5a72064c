import DeepinAnything.FsBuf.EmptyRoot
import DeepinAnything.FsBuf.Rename
import DeepinAnything.FsBuf.PathName

/-!
# A rename that returns 0

`rename_path` returns 0 also when the insertion in its middle has failed, and when it went into a
root that the removal has emptied. This module follows a rename that has returned 0 through its two
halves, says which tree the buffer then holds, if any, and what the reported changes do to offsets.
-/

namespace DeepinAnything

open ByteMem OrderedForest OrderedForest.Forest

/-! ## The size of an image depends on kinds only -/

/-- An entry found in two trees with the same kinds, and what is beside it in the second one. -/
theorem split_of_kindAt {n : Bytes} {e : Entry Bytes} {r t' : Tree} (hv : (cons n e r).Valid NameOk)
    (hv' : t'.Valid NameOk) (h : ∀ p, (cons n e r).kindAt p = t'.kindAt p) :
    ∃ l' e' r', t' = l' ++ cons n e' r' ∧ e'.isNode = e.isNode ∧
      (∀ p, e.kids.kindAt p = e'.kids.kindAt p) ∧ ∀ p, r.kindAt p = (l' ++ r').kindAt p := by
  obtain ⟨-, hn, -, -⟩ := (valid_cons _ _ _).mp hv
  have hfind : (cons n e r).find? n = some e := by rw [find?_cons, if_pos rfl]
  have htop := h [n]
  rw [kindAt_cons, kindAt_cons, hfind] at htop
  cases hfind' : t'.find? n with
  | none => simp [hfind'] at htop
  | some e' =>
    obtain ⟨l', r', rfl, hl'⟩ := exists_of_find?_eq_some hfind'
    have hr' := ((valid_cons _ _ _).mp ((valid_append _ _).mp hv').2.1).2.1
    refine ⟨l', e', r', rfl, by simpa [hfind'] using htop.symm, fun p => ?_, fun p => ?_⟩
    · by_cases hp : p = []
      · simp [hp]
      · have := h (n :: p)
        simpa [kindAt_cons, hfind, hfind', hp] using this
    · cases p with
      | nil => rfl
      | cons x xs =>
        by_cases hx : n = x
        · subst hx
          have hrn := (find?_eq_none_iff r n).mpr hn
          have hlr : (l' ++ r').find? n = none :=
            (find?_eq_none_iff _ _).mpr (by simp [hl', hr'])
          rw [kindAt_cons, kindAt_cons, hrn, hlr]
        · have := h (x :: xs)
          rw [kindAt_cons, kindAt_cons, find?_append, find?_cons, find?_cons, if_neg hx, if_neg hx,
            ← find?_append] at this
          rw [kindAt_cons, kindAt_cons, this]

theorem sizes_eq_of_kindAt {t t' : Tree} (hv : t.Valid NameOk) (hv' : t'.Valid NameOk)
    (h : ∀ p, t.kindAt p = t'.kindAt p) :
    entriesSize t = entriesSize t' ∧ belowSize t = belowSize t' := by
  induction t generalizing t' with
  | nil =>
    cases t' with
    | nil => exact ⟨rfl, rfl⟩
    | leaf n r => exact absurd (h [n]) (by simp [kindAt_cons, find?])
    | node n k r => exact absurd (h [n]) (by simp [kindAt_cons, find?])
  | leaf n r ih =>
    obtain ⟨l', e', r', rfl, hnode, -, hrest⟩ := split_of_kindAt (e := .leaf) hv hv' h
    have hvlr : (l' ++ r').Valid NameOk := by
      obtain ⟨hl, hcons, hnot⟩ := (valid_append _ _).mp hv'
      refine (valid_append _ _).mpr ⟨hl, ((valid_cons _ _ _).mp hcons).2.2.2, fun x hx hxr => ?_⟩
      exact hnot x hx (by cases e' <;> simp [hxr])
    obtain ⟨hentries, hbelow⟩ := ih hv.2.2 hvlr hrest
    cases e' with
    | node k => simp [Entry.isNode] at hnode
    | leaf =>
      simp only [entriesSize_leaf, belowSize_leaf, entriesSize_append, belowSize_append, cons_leaf]
        at hentries hbelow ⊢
      omega
  | node n k r ihk ih =>
    obtain ⟨l', e', r', rfl, hnode, hkids, hrest⟩ := split_of_kindAt (e := .node k) hv hv' h
    obtain ⟨hl, hcons, hnot⟩ := (valid_append _ _).mp hv'
    obtain ⟨-, -, hvk', hvr'⟩ := (valid_cons _ _ _).mp hcons
    have hvlr : (l' ++ r').Valid NameOk := by
      refine (valid_append _ _).mpr ⟨hl, hvr', fun x hx hxr => ?_⟩
      exact hnot x hx (by cases e' <;> simp [hxr])
    obtain ⟨hentries, hbelow⟩ := ih hv.2.2.2 hvlr hrest
    cases e' with
    | leaf => simp [Entry.isNode] at hnode
    | node k' =>
      obtain ⟨hke, hkb⟩ : entriesSize k = entriesSize k' ∧ belowSize k = belowSize k' :=
        ihk hv.2.2.1 hvk' hkids
      have hrun : runSize k = runSize k' := by
        have hnil : k = .nil ↔ k' = .nil := by
          rw [← entriesSize_eq_zero_iff, ← entriesSize_eq_zero_iff (t := k'), hke]
        simp only [runSize, hnil, hke]
      simp only [entriesSize_node, belowSize_node, entriesSize_append, belowSize_append, cons_node,
        treeSize] at hentries hbelow ⊢
      omega

theorem treeSize_eq_of_kindAt {t t' : Tree} (hv : t.Valid NameOk) (hv' : t'.Valid NameOk)
    (h : ∀ p, t.kindAt p = t'.kindAt p) : treeSize t = treeSize t' := by
  obtain ⟨hentries, hbelow⟩ := sizes_eq_of_kindAt hv hv' h
  have hnil : t = .nil ↔ t' = .nil := by
    rw [← entriesSize_eq_zero_iff, ← entriesSize_eq_zero_iff (t := t'), hentries]
  simp only [treeSize, runSize, hnil, hentries, hbelow]

/-! ## The destination -/

/-- What the path of a destination says: the directory that its parent path leads to, and the new
name. -/
structure Destination (root dst : Bytes) (d : List Bytes) (name : Bytes) : Prop where
  nameOk : NameOk name
  length_lt : name.length < 2 ^ 31
  parent : ∃ parent, strrchrSlash dst = some (parent, name) ∧ address root parent = some d
  address_eq : address root dst = some (d ++ [name])

theorem destination_of_accepted {b : FsBuf} {root src : Bytes} {t k₀ : Tree}
    (h : Represents b root t) {dst : CPath} {d : List Bytes} {name : Bytes}
    (hD : address root dst.bytes = some (d ++ [name])) (hd : t.entryAt d = some (.node k₀))
    (hok : b.RenameAccepted src dst.bytes) : Destination root dst.bytes d name := by
  obtain ⟨parent, name', hsplit, hne, hparent, -⟩ := hok.parent
  obtain ⟨hname', hlen'⟩ := dst.nameOk hsplit hne
  have hdst := (strrchrSlash_eq_some hsplit).1
  have hroot : root <+: dst.bytes := by
    by_contra hnot
    rw [address_eq_none hnot] at hD
    split at hD <;> simp at hD
  have hslash : slash ∉ name := by
    obtain ⟨rel, hrel⟩ := hroot
    rw [← hrel, address_append, Option.some.injEq] at hD
    exact slash_not_mem_of_mem_components (p := chompSlash rel) (by rw [hD]; simp)
  have hjoin : dst.bytes = root ++ joinPath (d ++ [name]) := by
    rcases Represents.eq_joinPath_of_address hroot hD with hjoin | hjoin
    · exact hjoin
    · -- a slash at the end would leave no name
      have hlast : dst.bytes.getLast? = some slash := by rw [hjoin]; simp
      rw [hdst, List.getLast?_append_of_ne_nil _ (by simp)] at hlast
      obtain ⟨c, cs, hc⟩ := List.exists_cons_of_ne_nil hname'.1
      rw [hc] at hlast hname'
      exact absurd (List.mem_of_getLast? (by simpa using hlast)) hname'.2.2
  by_cases hd0 : d = []
  · obtain ⟨r, hr⟩ := h.root_ok.exists_snoc
    have hsplit' : strrchrSlash dst.bytes = some (r, name) := by
      rw [hjoin, hd0, hr]
      simpa using strrchrSlash_append r hslash
    obtain ⟨rfl, rfl⟩ : parent = r ∧ name' = name := by simpa [hsplit] using hsplit'
    refine ⟨hname', hlen', ⟨parent, hsplit, ?_⟩, hD⟩
    have hnot : ¬ root <+: parent := by
      intro hpre
      have := hpre.length_le
      rw [hr, List.length_append, List.length_singleton] at this
      omega
    rw [address_eq_none hnot, hd0]
    by_contra hcase
    rcases h.lookup_cases parent with ⟨-, hoff⟩ | ⟨hres, -⟩ | ⟨c, l, r, n, e, -, -, -, hres, -⟩
    · exact hparent hoff
    all_goals
      rw [resolve, address_eq_none hnot] at hres
      split at hres
      · rename_i hcond
        exact hcase (if_pos hcond)
      · simp at hres
  · have hsplit' : strrchrSlash dst.bytes = some (root ++ joinPath d, name) := by
      rw [hjoin, joinPath_snoc hd0, ← List.append_assoc]
      exact strrchrSlash_append _ hslash
    obtain ⟨rfl, rfl⟩ : parent = root ++ joinPath d ∧ name' = name := by simpa [hsplit] using hsplit'
    exact ⟨hname', hlen', ⟨_, hsplit, address_joinPath (h.valid.of_entryAt hd)⟩, hD⟩

/-- Where a destination leads to depends on whether there is something. -/
theorem Destination.resolve_eq {root dst : Bytes} {d : List Bytes} {name : Bytes}
    (h : Destination root dst d name) (t : Tree) :
    resolve root t dst = if (t.entryAt (d ++ [name])).isSome then some (d ++ [name]) else none := by
  rw [resolve, h.address_eq, Option.filter]

/-- The insertion that a destination asks for when its parent is there and it is not. -/
theorem Destination.insertTarget_eq {root dst : Bytes} {d : List Bytes} {name : Bytes}
    (h : Destination root dst d name) {t k : Tree} (hd : t.entryAt d = some (.node k))
    (hnew : name ∉ k.names) : insertTarget root t dst = .ok (d, k, name) := by
  obtain ⟨parent, hsplit, haddr⟩ := h.parent
  have hres : resolve root t parent = some d := by
    rw [resolve, haddr, Option.filter, hd]
    rfl
  rw [insertTarget, hsplit]
  simp [h.nameOk.1, hres, hd, hnew]

/-! ## The two halves -/

namespace FsBuf

variable {b : FsBuf}

/-- `do_insert_path` writes its `fs_change` when it returns 0 and leaves it alone otherwise. -/
theorem doInsertPath_slot {realloc : ℕ → Bool} {path : Bytes} {isDir : Bool} {change : FsChange}
    {ret : Ret} {b' : FsBuf} {change' : FsChange}
    (h : b.doInsertPath realloc path isDir change = some (ret, b', change')) :
    (ret = .ok ∧ ∀ slot, b.doInsertPath realloc path isDir slot = some (.ok, b', change')) ∨
    (ret ≠ .ok ∧ b' = b ∧ change' = change) := by
  have hentry : ∀ {parentOff kidsOff : ℕ} {name : Bytes} {emptyFolder : Bool},
      b.insertEntry realloc parentOff kidsOff name isDir emptyFolder change = some (ret, b', change') →
      (ret = .ok ∧ ∀ slot, b.insertEntry realloc parentOff kidsOff name isDir emptyFolder slot =
        some (.ok, b', change')) ∨ (ret ≠ .ok ∧ b' = b ∧ change' = change) := by
    intro parentOff kidsOff name emptyFolder heq
    cases hnew : b.insertNewName realloc kidsOff name isDir emptyFolder with
    | none =>
      rw [insertEntry, hnew] at heq
      simp only [Option.some.injEq, Prod.mk.injEq] at heq
      obtain ⟨rfl, rfl, rfl⟩ := heq
      exact .inr ⟨by simp, rfl, rfl⟩
    | some b₁ =>
      left
      simp only [insertEntry, hnew] at heq ⊢
      cases emptyFolder with
      | true =>
        simp only [if_true, Option.map_eq_some_iff, Prod.mk.injEq] at heq ⊢
        obtain ⟨b₂, hupd, rfl, rfl, rfl⟩ := heq
        exact ⟨rfl, fun _ => ⟨b₂, hupd, trivial, rfl, rfl⟩⟩
      | false =>
        simp only [Bool.false_eq_true, if_false, Option.map_eq_some_iff, Prod.mk.injEq] at heq ⊢
        obtain ⟨b₂, hupd, rfl, rfl, rfl⟩ := heq
        exact ⟨rfl, fun _ => ⟨b₂, hupd, trivial, rfl, rfl⟩⟩
  have herror : ∀ r : Ret, r ≠ .ok → some (r, b, change) = some (ret, b', change') →
      ret ≠ .ok ∧ b' = b ∧ change' = change := by
    intro r hr heq
    simp only [Option.some.injEq, Prod.mk.injEq] at heq
    obtain ⟨rfl, rfl, rfl⟩ := heq
    exact ⟨hr, rfl, rfl⟩
  simp only [doInsertPath] at h ⊢
  cases hsplit : strrchrSlash path with
  | none =>
    rw [hsplit] at h
    exact .inr (herror _ (by simp) h)
  | some s =>
    obtain ⟨parent, name⟩ := s
    simp only [hsplit] at h ⊢
    by_cases hname : name = []
    · rw [if_pos hname] at h
      exact .inr (herror _ (by simp) h)
    simp only [if_neg hname] at h ⊢
    split at h
    · exact .inr (herror _ (by simp) h)
    rename_i hparent
    simp only [if_neg hparent]
    generalize (if dataStart = b.getPathOffset parent then b.firstNameOff
      else b.getKidsOffset (b.getPathOffset parent)) = kidsOff at h ⊢
    by_cases hkids : kidsOff ≠ 0
    · simp only [if_pos hkids] at h ⊢
      cases hfind : b.findSiblingLoop name b.tail kidsOff with
      | none =>
        rw [hfind] at h
        exact .inr (herror _ (by simp) h)
      | some off =>
        rw [hfind] at h
        exact hentry h
    · simp only [if_neg hkids] at h ⊢
      cases hoff : b.getInsertOffset (b.getPathOffset parent) with
      | none => simp [hoff] at h
      | some off =>
        rw [hoff] at h
        exact hentry h

theorem addCapacity_tail {realloc : ℕ → Bool} {size : ℕ} {b' : FsBuf}
    (h : b.addCapacity realloc size = some b') :
    b'.tail = b.tail ∧ b'.firstNameOff = b.firstNameOff := by
  simp only [addCapacity] at h
  generalize (if size / fsNewBlkSize * fsNewBlkSize < size then
    u32 (size / fsNewBlkSize * fsNewBlkSize + fsNewBlkSize)
    else size / fsNewBlkSize * fsNewBlkSize) = allocSize at h
  split at h
  · simp at h
  · split at h
    · obtain rfl := Option.some.inj h
      exact ⟨rfl, rfl⟩
    · simp at h

/-- A splice that returns 0 has made the buffer longer by the subtree, wherever it put it. -/
theorem spliceTree_ok {reallocTree : ℕ → Bool} {dstOff : ℕ} {tree : Bytes} {changes ch : List FsChange}
    {b' : FsBuf} (h : b.spliceTree reallocTree dstOff tree changes = some (.ok, b', ch))
    (hfit : b.tail + tree.length < 2 ^ 32) :
    b'.tail = b.tail + tree.length ∧ b'.firstNameOff = b.firstNameOff ∧
      ∃ change, ch = changes ++ [change] := by
  have hu32 : u32 (b.tail + tree.length) = b.tail + tree.length := u32_of_lt hfit
  obtain ⟨b₁, hgrown, htail₁, hfirst₁⟩ : ∃ b₁, (if u32 (tree.length + b.tail) ≥ b.capacity then
      b.addCapacity reallocTree tree.length else some b) = some b₁ ∧ b₁.tail = b.tail ∧
      b₁.firstNameOff = b.firstNameOff := by
    cases hgrown : (if u32 (tree.length + b.tail) ≥ b.capacity then
        b.addCapacity reallocTree tree.length else some b) with
    | none => simp [spliceTree, hgrown] at h
    | some b₁ =>
      refine ⟨b₁, rfl, ?_⟩
      split at hgrown
      · exact addCapacity_tail hgrown
      · obtain rfl := Option.some.inj hgrown
        exact ⟨rfl, rfl⟩
  simp only [spliceTree, hgrown] at h
  cases hoff : b₁.getInsertOffset dstOff with
  | none => simp [hoff] at h
  | some kidsOff =>
    simp only [hoff, Option.map_eq_some_iff, Prod.mk.injEq] at h
    obtain ⟨b₂, hupd, -, rfl, rfl⟩ := h
    have hhead := updateOffsets_headOnly hupd
    refine ⟨?_, ?_, _, rfl⟩
    · rw [hhead.tail_eq, ← hu32, ← htail₁]
      rfl
    · rw [hhead.first_eq, ← hfirst₁]
      rfl

/-- The steps of a move that has returned 0. -/
theorem moveEntry_ok {root src : Bytes} {c : List (Frame Bytes)} {l r : Tree} {n : Bytes}
    {e : Entry Bytes} (h : Represents b root (plug c (l ++ cons n e r)))
    (hsrc : b.getPathOffset src = runPos b.firstNameOff c + entriesSize l) {heap : Heap} {dst : Bytes}
    {dstOff : ℕ} {changes ch : List FsChange} {b' : FsBuf}
    (hret : b.moveEntry heap src dst (!e.isNode) dstOff changes = some (.ok, b', ch)) :
    ∃ b₁ b₂ ch₂, Represents b₁ root (plug c (l ++ r)) ∧ b₁.capacity = b.capacity ∧
      (dstOff ≠ 0 → b₂ = b₁ ∧ ch₂ = removeChanges b.firstNameOff c l r n e) ∧
      (dstOff = 0 → ∃ ret change,
        b₁.doInsertPath heap.realloc dst e.isNode heap.slot = some (ret, b₂, change) ∧
        ch₂ = removeChanges b.firstNameOff c l r n e ++ [change]) ∧
      (e.kids = .nil → b' = b₂ ∧ ch = ch₂) ∧
      (e.kids ≠ .nil → ∃ tree, IsImage tree e.kids ∧
        b₂.spliceTree heap.reallocTree (b₂.getPathOffset dst) tree ch₂ = some (.ok, b', ch)) ∧
      ∀ slot, (dstOff = 0 → ∃ ret change, b₁.doInsertPath heap.realloc dst e.isNode slot =
          some (ret, b₂, change) ∧ ch₂ = removeChanges b.firstNameOff c l r n e ++ [change]) →
        b.moveEntry { heap with slot := slot } src dst (!e.isNode) dstOff changes =
          some (.ok, b', ch) := by
  rcases doRemovePath_entry h hsrc heap.malloc changes true with ⟨-, -, -, heq⟩ | ⟨-, hok⟩
  · simp [moveEntry, heq] at hret
  obtain ⟨b₁, kidsTree, heq, hrep₁, hcap, hcopy, hnone⟩ := hok
  generalize removeChanges b.firstNameOff c l r n e = rm at heq ⊢
  rw [moveEntry_of_removed heap heq, Option.bind_eq_some_iff] at hret
  obtain ⟨⟨b₂, ch₂⟩, hins, hfinish⟩ := hret
  refine ⟨b₁, b₂, ch₂, hrep₁, hcap, fun h0 => ?_, fun h0 => ?_, fun hk => ?_, fun hk => ?_, ?_⟩
  · rw [if_neg h0, Option.some.injEq, Prod.mk.injEq] at hins
    exact ⟨hins.1.symm, hins.2.symm⟩
  · rw [if_pos h0, Option.map_eq_some_iff] at hins
    obtain ⟨⟨ret, b₃, change⟩, hdo, heq₂⟩ := hins
    simp only [Prod.mk.injEq] at heq₂
    obtain ⟨rfl, rfl⟩ := heq₂
    exact ⟨ret, change, hdo, rfl⟩
  · obtain rfl := hnone (.inr hk)
    simpa [eq_comm] using hfinish
  · obtain ⟨tree, rfl, himage⟩ := hcopy rfl hk
    exact ⟨tree, himage, hfinish⟩
  · intro slot hslot
    rw [moveEntry_of_removed { heap with slot := slot } heq]
    by_cases h0 : dstOff = 0
    · obtain ⟨ret, change, hdo, rfl⟩ := hslot h0
      rw [if_pos h0, hdo]
      exact hfinish
    · rw [if_neg h0] at hins ⊢
      rw [hins]
      exact hfinish

end FsBuf

/-! ## The reported changes -/

/-- The entries of `t` that `keep` selects are in `t'`, where the changes say. -/
def Follows (base : ℕ) (t t' : Tree) (keep : List Bytes → Prop) (changes : List FsChange) : Prop :=
  ∀ q, q ≠ [] → (t.kindAt q).isSome → keep q →
    (t'.kindAt q).isSome ∧ relocate changes (offAt base t q) = offAt base t' q

theorem isSome_kindAt {t : Tree} {q : List Bytes} : (t.kindAt q).isSome = (t.entryAt q).isSome := by
  rw [kindAt, Option.isSome_map]

theorem Follows.trans {base : ℕ} {t₁ t₂ t₃ : Tree} {keep : List Bytes → Prop} {x y : List FsChange}
    (h : Follows base t₁ t₂ keep x) (h' : Follows base t₂ t₃ (fun _ => True) y) :
    Follows base t₁ t₃ keep (x ++ y) := by
  intro q hq hentry hkeep
  obtain ⟨hentry', heq⟩ := h q hq hentry hkeep
  obtain ⟨hentry'', heq'⟩ := h' q hq hentry' trivial
  exact ⟨hentry'', by rw [relocate_append, heq, heq']⟩

/-- Every entry stands before the end of the image. -/
theorem Represents.offAt_lt {b : FsBuf} {root : Bytes} {t : Tree} (h : Represents b root t)
    {q : List Bytes} (hq : q ≠ []) (hentry : (t.kindAt q).isSome) :
    offAt b.firstNameOff t q < 2 ^ 30 := by
  rw [isSome_kindAt] at hentry
  obtain ⟨e, he⟩ := Option.isSome_iff_exists.mp hentry
  exact (DeepinAnything.offAt_lt b.firstNameOff he hq).trans_le h.fits

theorem follows_remove {b : FsBuf} {root : Bytes} {c : List (Frame Bytes)} {l r : Tree} {n : Bytes}
    {e : Entry Bytes} (h : Represents b root (plug c (l ++ cons n e r))) (hc : Fits c)
    (hl : n ∉ l.names) :
    Follows b.firstNameOff (plug c (l ++ cons n e r)) (plug c (l ++ r))
      (fun q => ¬ path c ++ [n] <+: q) (removeChanges b.firstNameOff c l r n e) := by
  intro q hq hsome hkeep
  have hpos := h.first_pos
  have hr : n ∉ r.names :=
    ((valid_cons _ _ _).mp ((valid_append _ _).mp (Valid.of_plug h.valid)).2.1).2.1
  have hsome' : ((plug c (l ++ r)).kindAt q).isSome := by
    rw [kindAt_plug_erase hc e hl hr, if_neg hkeep]
    exact hsome
  refine ⟨hsome', ?_⟩
  have hlt := h.offAt_lt hq hsome
  rw [isSome_kindAt] at hsome'
  obtain ⟨e', he'⟩ := Option.isSome_iff_exists.mp hsome'
  -- the entry without what is below it
  obtain ⟨e₀, hk₀, hgap, hle, hkids⟩ : ∃ e₀ : Entry Bytes, e₀.kids = .nil ∧
      gapSize n e (l ++ r) = gapSize n e₀ (l ++ r) ∧
      offAt b.firstNameOff (plug c (l ++ cons n e₀ r)) q ≤
        offAt b.firstNameOff (plug c (l ++ cons n e r)) q ∧
      relocate (if e.kids = .nil then [] else [⟨runPos b.firstNameOff (⟨l, n, r⟩ :: c),
        -(treeSize e.kids : ℤ)⟩]) (offAt b.firstNameOff (plug c (l ++ cons n e r)) q) =
        offAt b.firstNameOff (plug c (l ++ cons n e₀ r)) q := by
    cases e with
    | leaf => exact ⟨.leaf, rfl, rfl, le_rfl, rfl⟩
    | node k =>
      by_cases hk : k = .nil
      · subst hk
        exact ⟨.node .nil, rfl, rfl, le_rfl, rfl⟩
      · have hfits : Fits ((⟨l, n, r⟩ : Frame Bytes) :: c) := by
          intro f hf
          rcases List.mem_cons.mp hf with rfl | hf
          · exact hl
          · exact hc f hf
        have hopen := opened_kids hfits (show 0 < b.firstNameOff by omega) (q := q) (by
          rintro s - rfl
          exact hkeep ⟨s, rfl⟩) k
        refine ⟨.node .nil, rfl, rfl, hopen.le, ?_⟩
        rw [if_neg (show (Entry.node k).kids ≠ .nil from hk)]
        exact hopen.apply_neg (lt_trans hlt (by decide))
  have hopen := opened_entry hc (show 0 < b.firstNameOff by omega) hk₀ hl hr hq he'
  rw [removeChanges, relocate_append, hkids, relocate_cons, relocate_nil, hgap]
  exact hopen.apply_neg (by omega)

theorem follows_insert {b b' : FsBuf} {root : Bytes} {c : List (Frame Bytes)} {k : Tree} {n : Bytes}
    {e : Entry Bytes} (h : Represents b root (plug c k)) (hc : Fits c) (he : e.kids = .nil)
    (hn : n ∉ k.names) (h' : Represents b' root (plug c (k ++ cons n e .nil))) :
    Follows b.firstNameOff (plug c k) (plug c (k ++ cons n e .nil)) (fun _ => True)
      [⟨runPos b.firstNameOff c + entriesSize k, (gapSize n e k : ℕ)⟩] := by
  intro q hq hsome _
  have hpos := h.first_pos
  have hfirst : b'.firstNameOff = b.firstNameOff := h'.first_eq.trans h.first_eq.symm
  have hsome' : ((plug c (k ++ cons n e .nil)).kindAt q).isSome := by
    rw [kindAt_plug_snoc hc hn he]
    split
    · rfl
    · exact hsome
  have hlt := h'.offAt_lt hq hsome'
  rw [hfirst] at hlt
  refine ⟨hsome', ?_⟩
  rw [isSome_kindAt] at hsome
  obtain ⟨e', he'⟩ := Option.isSome_iff_exists.mp hsome
  have hopen := opened_entry hc (show 0 < b.firstNameOff by omega) he hn (r := .nil) (by simp) hq
    (show (plug c (k ++ .nil)).entryAt q = some e' by rwa [append_nil])
  rw [append_nil] at hopen
  exact hopen.apply (lt_trans hlt (by decide))

theorem follows_setKids {b' : FsBuf} {root : Bytes} {c : List (Frame Bytes)} {k : Tree} {base : ℕ}
    (h' : Represents b' root (plug c k)) (hc : Fits c) (hbase : b'.firstNameOff = base) :
    Follows base (plug c .nil) (plug c k) (fun _ => True) [⟨runPos base c, (treeSize k : ℕ)⟩] := by
  subst hbase
  intro q hq hsome _
  have hpos := h'.first_pos
  have hout : ∀ s, s ≠ [] → q ≠ path c ++ s := by
    rintro s hs rfl
    obtain ⟨x, xs, rfl⟩ := List.exists_cons_of_ne_nil hs
    rw [kindAt_plug hc] at hsome
    simp [kindAt_cons, find?] at hsome
  have hsome' : ((plug c k).kindAt q).isSome := by
    rw [kindAt_plug_eq hc k .nil]
    split
    · rename_i hpre
      obtain ⟨s, rfl⟩ := hpre
      by_cases hs : s = []
      · simp [hs]
      · exact absurd rfl (hout s hs)
    · exact hsome
  have hlt := h'.offAt_lt hq hsome'
  exact ⟨hsome', (opened_kids hc (by omega) hout k).apply (lt_trans hlt (by decide))⟩

/-! ## A rename step by step -/

theorem length_removeChanges (base : ℕ) (c : List (Frame Bytes)) (l r : Tree) (n : Bytes)
    (e : Entry Bytes) :
    (removeChanges base c l r n e).length = if e.kids = .nil then 1 else 2 := by
  rw [removeChanges, List.length_append]
  split <;> rfl

theorem treeSize_kids_lt {b : FsBuf} {root : Bytes} {t : Tree} (h : Represents b root t)
    {q : List Bytes} {e : Entry Bytes} (hentry : t.entryAt q = some e) : treeSize e.kids < 2 ^ 31 := by
  have hfit := h.fits
  cases e with
  | leaf => exact (by decide : 0 < 2 ^ 31)
  | node k =>
    obtain ⟨c, rfl, -, -⟩ := exists_plug_of_entryAt_node hentry
    have hin := runPos_add_le b.firstNameOff c (treeSize k)
    have hle := base_le_runPos b.firstNameOff c
    rw [treeSize_plug] at hfit
    simp only [Entry.kids]
    omega

/-- The image of a tree with one more entry and all below it. -/
theorem treeSize_insert {t k : Tree} {d : List Bytes} (h : t.entryAt d = some (.node k)) (n : Bytes)
    (e : Entry Bytes) : treeSize (t.insert d n e) = treeSize t + (gapSize n e k + treeSize e.kids) := by
  obtain ⟨c, rfl, rfl, hc⟩ := exists_plug_of_entryAt_node h
  have hbelow : belowSize (cons n e .nil) = treeSize e.kids := by cases e <;> rfl
  have hsize : treeSize (k ++ cons n e .nil) = treeSize k + (gapSize n e k + treeSize e.kids) := by
    rw [treeSize_of_ne_nil (append_cons_ne_nil k .nil n e), entriesSize_append, belowSize_append,
      hbelow, gapSize]
    by_cases hk : k = .nil
    · subst hk
      simp only [entriesSize_nil, belowSize_nil, treeSize_nil, if_true]
      omega
    · rw [if_neg hk, treeSize_of_ne_nil hk]
      omega
  rw [insert_plug hc, treeSize_plug, treeSize_plug, hsize, plugSize_add]

namespace FsBuf

/-- The steps of a rename that has returned 0. -/
theorem renamePath_ok {b b' : FsBuf} {root src : Bytes} {t : Tree} (h : Represents b root t)
    {q : List Bytes} {n : Bytes} {e : Entry Bytes} (hres : resolve root t src = some (q ++ [n]))
    (hentry : t.entryAt (q ++ [n]) = some e) {dst : CPath} {heap : Heap} {changes ch : List FsChange}
    (hret : b.renamePath heap src dst.bytes changes = some (.ok, b', ch)) :
    b.RenameAccepted src dst.bytes ∧ b.doIsFile (b.getPathOffset src) = !e.isNode ∧
    ∃ c l r, t = plug c (l ++ cons n e r) ∧ path c = q ∧ Fits c ∧ n ∉ l.names ∧
      ∃ b₁ b₂ ch₂, Represents b₁ root (t.remove q n) ∧ b₁.capacity = b.capacity ∧
      (b.getPathOffset dst.bytes ≠ 0 → b₂ = b₁ ∧ ch₂ = removeChanges b.firstNameOff c l r n e) ∧
      (b.getPathOffset dst.bytes = 0 → ∃ ret change,
        b₁.doInsertPath heap.realloc dst.bytes e.isNode heap.slot = some (ret, b₂, change) ∧
        ch₂ = removeChanges b.firstNameOff c l r n e ++ [change]) ∧
      (e.kids = .nil → b' = b₂ ∧ ch = ch₂) ∧
      (e.kids ≠ .nil → ∃ tree, IsImage tree e.kids ∧
        b₂.spliceTree heap.reallocTree (b₂.getPathOffset dst.bytes) tree ch₂ = some (.ok, b', ch)) ∧
      ∀ slot, (b.getPathOffset dst.bytes = 0 → ∃ ret change,
          b₁.doInsertPath heap.realloc dst.bytes e.isNode slot = some (ret, b₂, change) ∧
          ch₂ = removeChanges b.firstNameOff c l r n e ++ [change]) →
        b.renamePath { heap with slot := slot } src dst.bytes changes = some (.ok, b', ch) := by
  rcases doRenamePath_cases b heap src dst.bytes changes with ⟨-, ret, hne, heq⟩ | ⟨hok, heq⟩
  · rw [renamePath, heq] at hret
    simp only [Option.some.injEq, Prod.mk.injEq] at hret
    exact absurd hret.1 hne
  rw [renamePath, heq] at hret
  rcases h.lookup_cases src with ⟨hnone, -⟩ | ⟨hroot, -⟩ | ⟨c, l, r, n', e₁, rfl, hc, hl, hat, hoff⟩
  · simp [hnone] at hres
  · simp [hroot] at hres
  obtain ⟨rfl, hn⟩ := List.append_inj' (Option.some.inj (hat.symm.trans hres)) rfl
  obtain rfl : n' = n := by simpa using hn
  obtain rfl : e₁ = e := Option.some.inj ((entryAt_plug_cons hc e₁ hl).symm.trans hentry)
  have hfile := h.entryFacts.isFile
  rw [hoff, hfile] at hret
  obtain ⟨b₁, b₂, ch₂, hrep₁, hcap, hexists, hinsert, hsame, hsplice, hslot⟩ := moveEntry_ok h hoff hret
  rw [remove_plug hc hl]
  refine ⟨hok, by rw [hoff, hfile], c, l, r, rfl, rfl, hc, hl, b₁, b₂, ch₂, hrep₁, hcap, hexists,
    hinsert, hsame, hsplice, fun slot hdo => ?_⟩
  rcases doRenamePath_cases b { heap with slot := slot } src dst.bytes changes with
    ⟨hnot, -⟩ | ⟨-, heq'⟩
  · exact absurd hok hnot
  · rw [renamePath, heq', hoff, hfile]
    exact hslot slot hdo

/-- What the checks say of a destination that is there. -/
theorem RenameAccepted.replaced {b : FsBuf} {root src dst : Bytes} {t : Tree}
    (hok : b.RenameAccepted src dst) (h : Represents b root t) {D : List Bytes} {e' : Entry Bytes}
    (hD : resolve root t dst = some D) (hne : D ≠ []) (he' : t.entryAt D = some e') {isDir : Bool}
    (hsrc : b.doIsFile (b.getPathOffset src) = !isDir) :
    b.getPathOffset dst ≠ 0 ∧ e'.isNode = isDir ∧ e'.kids = .nil := by
  rcases h.lookup_cases dst with ⟨hnone, -⟩ | ⟨hroot, -⟩ | ⟨c, l, r, m, e, rfl, hc, hl, hat, hoff⟩
  · simp [hnone] at hD
  · exact absurd (Option.some.inj (hroot.symm.trans hD)).symm hne
  obtain rfl : path c ++ [m] = D := Option.some.inj (hat.symm.trans hD)
  obtain rfl : e = e' := Option.some.inj ((entryAt_plug_cons hc e hl).symm.trans he')
  have hfacts := h.entryFacts
  have hpos := hfacts.pos
  have h0 : b.getPathOffset dst ≠ 0 := by omega
  have hkind := hok.same_kind h0
  rw [hoff, hfacts.isFile, hsrc] at hkind
  have hnode : e.isNode = isDir := by simpa using hkind
  refine ⟨h0, hnode, ?_⟩
  cases e with
  | leaf => rfl
  | node k =>
    obtain rfl : true = isDir := hnode
    have hkids := hok.no_kids h0 hsrc
    rw [hoff, hfacts.kidsOff] at hkids
    by_contra hk
    rw [if_neg hk] at hkids
    have hle := base_le_runPos b.firstNameOff ((⟨l, m, r⟩ : Frame Bytes) :: c)
    have hfirst := h.first_pos
    omega

/-- A rename onto something of the same kind without kids. -/
theorem renamePath_replaces {b b' : FsBuf} {root src : Bytes} {t : Tree} (h : Represents b root t)
    {q : List Bytes} {n : Bytes} {e : Entry Bytes} (hres : resolve root t src = some (q ++ [n]))
    (hentry : t.entryAt (q ++ [n]) = some e) {dst : CPath} {d : List Bytes} {name : Bytes}
    {k₀ : Tree} (hD : address root dst.bytes = some (d ++ [name]))
    (hd : t.entryAt d = some (.node k₀)) {e' : Entry Bytes} (he' : t.entryAt (d ++ [name]) = some e')
    (hout : q ++ [n] <+: d ++ [name] → d ++ [name] = q ++ [n]) {heap : Heap}
    {changes ch : List FsChange}
    (hret : b.renamePath heap src dst.bytes changes = some (.ok, b', ch)) :
    e'.isNode = e.isNode ∧ e'.kids = .nil ∧
      Represents b' root (if e.kids = .nil then t.remove q n
        else (t.remove q n).setKids (d ++ [name]) e.kids) ∧
      Follows b.firstNameOff t (if e.kids = .nil then t.remove q n
        else (t.remove q n).setKids (d ++ [name]) e.kids) (fun p => ¬ q ++ [n] <+: p) ch ∧
      ∀ slot, b.renamePath { heap with slot := slot } src dst.bytes changes = some (.ok, b', ch) := by
  obtain ⟨hok, hfile, c, l, r, rfl, rfl, hc, hl, b₁, b₂, ch₂, hrep₁, -, hexists, -, hsame, hsplice,
    hslot⟩ := renamePath_ok h hres hentry hret
  have hdest := destination_of_accepted h hD hd hok
  have hresD : resolve root (plug c (l ++ cons n e r)) dst.bytes = some (d ++ [name]) := by
    rw [hdest.resolve_eq, he']
    rfl
  obtain ⟨hoffD, hnode, hnil⟩ := hok.replaced h hresD (by simp) he' hfile
  obtain ⟨rfl, rfl⟩ := hexists hoffD
  have hfollows := follows_remove h hc hl
  have hslots : ∀ slot, b.renamePath { heap with slot := slot } src dst.bytes changes =
      some (.ok, b', ch) := fun slot => hslot slot fun h0 => absurd h0 hoffD
  refine ⟨hnode, hnil, ?_⟩
  rw [remove_plug hc hl] at hrep₁ ⊢
  by_cases hk : e.kids = .nil
  · obtain ⟨rfl, rfl⟩ := hsame hk
    rw [if_pos hk]
    exact ⟨hrep₁, hfollows, hslots⟩
  · rw [if_neg hk]
    obtain ⟨tree, himage, hsplice⟩ := hsplice hk
    -- the destination is not the source, so it is still there
    have hnot : ¬ path c ++ [n] <+: d ++ [name] := by
      intro hpre
      rw [hout hpre] at he'
      rw [hentry] at he'
      exact hk ((Option.some.inj he') ▸ hnil)
    have hdir : e'.isNode = true := hnode.trans (isNode_of_kids_ne_nil hk)
    have hkind : (plug c (l ++ r)).kindAt (d ++ [name]) = some true := by
      rw [← remove_plug hc hl, kindAt_remove h.valid hentry, if_neg hnot, kindAt, he', Option.map_some,
        hdir]
    obtain ⟨k, hk₁⟩ := exists_node_of_kindAt hkind
    obtain rfl : k = .nil := by
      refine eq_nil_of_kindAt fun x => ?_
      have hbelow := kindAt_append hk₁ [x]
      rw [← remove_plug hc hl, kindAt_remove h.valid hentry, kindAt_append he' [x]] at hbelow
      have hnone : entryKindAt e' [x] = none := by simp [entryKindAt, hnil, kindAt_cons, find?]
      rw [hnone, ite_self] at hbelow
      exact hbelow.symm
    have hresD₁ : resolve root (plug c (l ++ r)) dst.bytes = some (d ++ [name]) := by
      rw [hdest.resolve_eq, hk₁]
      rfl
    obtain ⟨c₁, hplug, hpath, hfits, hoff₁⟩ := hrep₁.exists_plug_of_resolve hresD₁ hk₁
    have hfirst : b₂.firstNameOff = b.firstNameOff := hrep₁.first_eq.trans h.first_eq.symm
    cases c₁ with
    | nil => simp at hpath
    | cons f c₁ =>
      have hvk : e.kids.Valid NameOk :=
        ((valid_cons _ _ _).mp ((valid_append _ _).mp (Valid.of_plug h.valid)).2.1).2.2.1
      rw [hoff₁, dirOff] at hsplice
      rw [hplug] at hrep₁ hfollows ⊢
      rcases spliceTree_spec hrep₁ himage hk hvk (treeSize_kids_lt h hentry) rfl heap.reallocTree
        (removeChanges b.firstNameOff c l r n e) with ⟨-, hfail⟩ | ⟨-, b₃, hsome, hrep₃⟩
      · rw [hfail] at hsplice
        simp at hsplice
      · rw [hsome] at hsplice
        simp only [Option.some.injEq, Prod.mk.injEq, true_and] at hsplice
        obtain ⟨rfl, rfl⟩ := hsplice
        rw [← hpath, setKids_plug hfits]
        refine ⟨hrep₃, ?_, hslots⟩
        rw [hfirst]
        exact hfollows.trans (follows_setKids hrep₃ hfits (hrep₃.first_eq.trans h.first_eq.symm))

theorem gapSize_eq (name : Bytes) (e : Entry Bytes) (k : Tree) :
    gapSize name e k = insertSize k name e.isNode := by
  cases e <;> simp [gapSize, insertSize, newEntrySize, Entry.isNode]

theorem growthFails_congr {b b₁ : FsBuf} (hcap : b₁.capacity = b.capacity) {tail : ℕ}
    (htail : b₁.tail = tail) (realloc : ℕ → Bool) (size : ℕ) :
    GrowthFails b₁ realloc size ↔ GrowthFails { b with tail := tail } realloc size := by
  subst htail
  simp only [GrowthFails, hcap]

/-- The bytes that the insertion of a destination asks for. -/
def renameInsertSize (d : List Bytes) (k : Tree) (name : Bytes) (isDir : Bool) : ℕ :=
  if d = [] then newEntrySize name isDir else insertSize k name isDir

/-- A move that ends with an insertion that failed or went into an empty root leaves too short an
image. -/
theorem tail_lt_of_splice {b₂ b' : FsBuf} {e : Entry Bytes} {dst : Bytes} {heap : Heap}
    {ch₂ ch : List FsChange} (size : ℕ)
    (hsame : e.kids = .nil → b' = b₂ ∧ ch = ch₂)
    (hsplice : e.kids ≠ .nil → ∃ tree, IsImage tree e.kids ∧
      b₂.spliceTree heap.reallocTree (b₂.getPathOffset dst) tree ch₂ = some (.ok, b', ch))
    (hkids : treeSize e.kids < 2 ^ 31) (htail : b₂.tail < 2 ^ 31)
    (hsize : b₂.tail < b₂.firstNameOff + size) :
    b'.tail < b'.firstNameOff + (size + treeSize e.kids) ∧ ∃ rest, ch = ch₂ ++ rest := by
  by_cases hk : e.kids = .nil
  · obtain ⟨rfl, rfl⟩ := hsame hk
    exact ⟨by omega, [], (List.append_nil _).symm⟩
  · obtain ⟨tree, himage, heq⟩ := hsplice hk
    have hlen := himage.length_eq
    obtain ⟨htail', hfirst', change, rfl⟩ := spliceTree_ok heq (by omega)
    exact ⟨by omega, [change], rfl⟩

/-- A rename to where nothing is: the entry stands there with all below it, unless the insertion
failed or went into an empty root. -/
theorem renamePath_creates {b b' : FsBuf} {root src : Bytes} {t : Tree} (h : Represents b root t)
    {q : List Bytes} {n : Bytes} {e : Entry Bytes} (hres : resolve root t src = some (q ++ [n]))
    (hentry : t.entryAt (q ++ [n]) = some e) {dst : CPath} {d : List Bytes} {name : Bytes}
    {k₀ : Tree} (hD : address root dst.bytes = some (d ++ [name]))
    (hd : t.entryAt d = some (.node k₀)) (hmissing : t.entryAt (d ++ [name]) = none)
    (hout : ¬ q ++ [n] <+: d ++ [name]) {heap : Heap} {changes ch : List FsChange}
    (hret : b.renamePath heap src dst.bytes changes = some (.ok, b', ch)) :
    ∃ k, (t.remove q n).entryAt d = some (.node k) ∧ name ∉ k.names ∧ NameOk name ∧
      ((GrowthFails { b with tail := b.firstNameOff + treeSize (t.remove q n) } heap.realloc
          (renameInsertSize d k name e.isNode) ∧
        ch[if e.kids = .nil then 1 else 2]? = some heap.slot ∧
        b'.tail < b'.firstNameOff + treeSize ((t.remove q n).insert d name e)) ∨
      (¬ GrowthFails { b with tail := b.firstNameOff + treeSize (t.remove q n) } heap.realloc
          (renameInsertSize d k name e.isNode) ∧
        (∀ slot, b.renamePath { heap with slot := slot } src dst.bytes changes = some (.ok, b', ch)) ∧
        ((t.remove q n = .nil ∧
            b'.tail < b'.firstNameOff + treeSize ((t.remove q n).insert d name e)) ∨
          (t.remove q n ≠ .nil ∧ Represents b' root ((t.remove q n).insert d name e) ∧
            Follows b.firstNameOff t ((t.remove q n).insert d name e)
              (fun p => ¬ q ++ [n] <+: p) ch)))) := by
  obtain ⟨hok, hfile, c, l, r, rfl, rfl, hc, hl, b₁, b₂, ch₂, hrep₁, hcap, -, hinsert, hsame, hsplice,
    hslot⟩ := renamePath_ok h hres hentry hret
  have hdest := destination_of_accepted h hD hd hok
  have hremove := kindAt_remove h.valid hentry
  have hfollows := follows_remove h hc hl
  have hplug : (plug c (l ++ cons n e r)).remove (path c) n = plug c (l ++ r) := remove_plug hc hl
  rw [← hplug] at hfollows
  have hkidsLt := treeSize_kids_lt h hentry
  have hvk : e.kids.Valid NameOk :=
    ((valid_cons _ _ _).mp ((valid_append _ _).mp (Valid.of_plug h.valid)).2.1).2.2.1
  generalize (plug c (l ++ cons n e r)).remove (path c) n = t₁ at hrep₁ hremove hfollows ⊢
  have hlen := length_removeChanges b.firstNameOff c l r n e
  generalize removeChanges b.firstNameOff c l r n e = rm at hinsert hslot hfollows hlen
  -- the parent of the destination is still there
  have hkind : t₁.kindAt d = some true := by
    rw [hremove, if_neg (fun hpre => hout (hpre.trans (List.prefix_append _ _))), kindAt, hd]
    rfl
  obtain ⟨k, hk⟩ := exists_node_of_kindAt hkind
  have hnew : name ∉ k.names := by
    have hnone := hremove (d ++ [name])
    rw [if_neg hout, kindAt_append hk, kindAt, hmissing] at hnone
    rw [← find?_eq_none_iff]
    cases hfind : k.find? name with
    | none => rfl
    | some e₂ => simp [entryKindAt, kindAt_cons, hfind, Entry.kids] at hnone
  have hresD : resolve root (plug c (l ++ cons n e r)) dst.bytes = none := by
    rw [hdest.resolve_eq, hmissing]
    rfl
  have hoffD : b.getPathOffset dst.bytes = 0 := by
    rcases h.lookup_cases dst.bytes with ⟨-, hoff⟩ | ⟨hroot, -⟩ | ⟨_, _, _, _, _, -, -, -, hat, -⟩
    · exact hoff
    · simp [hresD] at hroot
    · simp [hresD] at hat
  obtain ⟨ret, change, hdo, rfl⟩ := hinsert hoffD
  have hfirst : b₁.firstNameOff = b.firstNameOff := hrep₁.first_eq.trans h.first_eq.symm
  have htail₁ := hrep₁.tail_eq
  have hmax₁ := hrep₁.sized.tail_le_max
  rw [hfirst] at htail₁
  have hgrow := growthFails_congr hcap htail₁
  have hsizes := treeSize_insert hk name e
  refine ⟨k, hk, hnew, hdest.nameOk, ?_⟩
  simp only [← hgrow]
  rw [gapSize_eq] at hsizes
  -- an insertion that failed
  have hfailed : b₁.doInsertPath heap.realloc dst.bytes e.isNode heap.slot =
      some (.noMem, b₁, heap.slot) →
      ch[if e.kids = .nil then 1 else 2]? = some heap.slot ∧
        b'.tail < b'.firstNameOff + treeSize (t₁.insert d name e) := by
    intro heq
    simp only [hdo, Option.some.injEq, Prod.mk.injEq] at heq
    obtain ⟨-, rfl, rfl⟩ := heq
    have hpos : 0 < insertSize k name e.isNode := by unfold insertSize newEntrySize; omega
    obtain ⟨hlt, rest, rfl⟩ := tail_lt_of_splice (treeSize t₁ + insertSize k name e.isNode)
      hsame hsplice hkidsLt (by omega) (by omega)
    exact ⟨by rw [← hlen]; simp, by omega⟩
  have hslots : ret = .ok → ∀ slot, b.renamePath { heap with slot := slot } src dst.bytes changes =
      some (.ok, b', ch) := by
    intro hret' slot
    rcases doInsertPath_slot hdo with ⟨-, hsame⟩ | ⟨hne, -⟩
    · exact hslot slot fun _ => ⟨.ok, change, hsame slot, rfl⟩
    · exact absurd hret' hne
  obtain ⟨parent, hsplit, haddr⟩ := hdest.parent
  have hresP : resolve root t₁ parent = some d := by
    rw [resolve, haddr, Option.filter, hk]
    rfl
  obtain ⟨c₁, hplug₁, hpath, hfits, hoff₁⟩ := hrep₁.exists_plug_of_resolve hresP hk
  by_cases ht : t₁ = .nil
  · -- the removal has emptied the root
    obtain ⟨rfl, rfl⟩ : c₁ = [] ∧ k = .nil := by
      cases c₁ with
      | nil => exact ⟨rfl, hplug₁.symm.trans ht⟩
      | cons f c₁ => exact absurd (hplug₁.symm.trans ht) (plug_cons_ne_nil f c₁ k)
    obtain rfl : d = [] := hpath.symm
    rw [ht] at hrep₁
    rw [renameInsertSize, if_pos rfl]
    rcases doInsertPath_emptyRoot hrep₁ hsplit hdest.nameOk hdest.length_lt hoff₁ heap.realloc e.isNode
      heap.slot with ⟨hfail, heq⟩ | ⟨hroom, b₃, change₃, heq, hsized₃, hfirst₃, htail₃, -⟩
    · exact .inl ⟨hfail, hfailed heq⟩
    · simp only [hdo, Option.some.injEq, Prod.mk.injEq] at heq
      obtain ⟨rfl, rfl, rfl⟩ := heq
      refine .inr ⟨hroom, hslots rfl, .inl ⟨ht, ?_⟩⟩
      have hmax₃ := hsized₃.tail_le_max
      have hsize : insertSize .nil name e.isNode = newEntrySize name e.isNode + 5 := rfl
      have hlt := (tail_lt_of_splice (treeSize t₁ + insertSize .nil name e.isNode) hsame hsplice
        hkidsLt (by omega) (by omega)).1
      omega
  · have hroot : c₁ = [] → k ≠ .nil := by
      rintro rfl rfl
      exact ht hplug₁
    have hsize : renameInsertSize d k name e.isNode = insertSize k name e.isNode := by
      rw [renameInsertSize]
      split
      · rename_i hd0
        have hk0 : k ≠ .nil := hroot (by
          cases c₁ with
          | nil => rfl
          | cons f c₁ => simp [hd0] at hpath)
        rw [insertSize, if_neg hk0, Nat.add_zero]
      · rfl
    rw [hsize]
    rw [hplug₁] at hrep₁
    rcases (doInsertPath_dir hrep₁ hroot hsplit hdest.nameOk hdest.length_lt hoff₁ heap.realloc e.isNode
      heap.slot).2 hnew with ⟨hfail, heq⟩ | ⟨hroom, b₃, heq, hrep₃⟩
    · exact .inl ⟨hfail, hfailed heq⟩
    · simp only [hdo, Option.some.injEq, Prod.mk.injEq] at heq
      obtain ⟨rfl, rfl, rfl⟩ := heq
      refine .inr ⟨hroom, hslots rfl, .inr ⟨ht, ?_⟩⟩
      have hnewKids : (newEntry e.isNode).kids = .nil := by cases e <;> rfl
      have hins := follows_insert hrep₁ hfits hnewKids hnew hrep₃
      have hgap : gapSize name (newEntry e.isNode) k = insertSize k name e.isNode := by
        rw [gapSize_eq]
        cases e <;> rfl
      rw [hfirst, hgap, ← hplug₁] at hins
      rw [hfirst] at hsame hsplice
      have hall := hfollows.trans hins
      have hinsert : ∀ e' : Entry Bytes, t₁.insert d name e' = plug c₁ (k ++ cons name e' .nil) := by
        intro e'
        rw [hplug₁, ← hpath, insert_plug hfits]
      rw [hinsert]
      by_cases hk' : e.kids = .nil
      · obtain ⟨rfl, rfl⟩ := hsame hk'
        obtain ⟨isDir, rfl⟩ := exists_newEntry hk'
        have hisDir : (newEntry isDir).isNode = isDir := by cases isDir <;> rfl
        rw [hisDir] at hrep₃ hall ⊢
        exact ⟨hrep₃, hall⟩
      · -- the new directory is found, and the subtree put back below it
        obtain ⟨tree, himage, hsplice⟩ := hsplice hk'
        cases e with
        | leaf => exact absurd rfl hk'
        | node kids =>
          have hlname : name ∉ k.names := hnew
          have hfits' : Fits ((⟨k, name, .nil⟩ : Frame Bytes) :: c₁) := by
            intro f hf
            rcases List.mem_cons.mp hf with rfl | hf
            · exact hlname
            · exact hfits f hf
          have hfirst₃ : b₂.firstNameOff = b.firstNameOff := hrep₃.first_eq.trans h.first_eq.symm
          have hrep₃' : Represents b₂ root (plug (⟨k, name, .nil⟩ :: c₁) .nil) := hrep₃
          have hoff₃ : b₂.getPathOffset dst.bytes = ownerPos b₂.firstNameOff ⟨k, name, .nil⟩ c₁ := by
            rw [hrep₃.getPathOffset_eq, hdest.address_eq, Option.map_some, Option.getD_some, offOf,
              if_neg (by simp), ← hpath, offAt_plug_cons hfits _ hlname]
            rfl
          rw [hoff₃] at hsplice
          rcases spliceTree_spec hrep₃' himage hk' hvk hkidsLt rfl heap.reallocTree _ with
            ⟨-, hfail⟩ | ⟨-, b₄, hsome, hrep₄⟩
          · rw [hfail] at hsplice
            simp at hsplice
          · rw [hsome] at hsplice
            simp only [Option.some.injEq, Prod.mk.injEq, true_and] at hsplice
            obtain ⟨rfl, rfl⟩ := hsplice
            refine ⟨hrep₄, ?_⟩
            rw [hfirst₃]
            exact hall.trans (follows_setKids hrep₄ hfits' (hrep₄.first_eq.trans h.first_eq.symm))

end FsBuf

end DeepinAnything
