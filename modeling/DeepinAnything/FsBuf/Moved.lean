import DeepinAnything.FsBuf.Move

/-!
# Renaming as a move in the tree

When `rename_path` returns 0 the buffer holds the tree with the source moved to the destination, but
for two cases: source and destination are the same path, where the entry is gone, and the insertion
of the destination failed or went into an emptied root, where the image is too short for the tree.
-/

namespace DeepinAnything

open ByteMem OrderedForest OrderedForest.Forest

/-- The kinds after the entry at `S` has moved to `D` with all below it. -/
def movedKind (t : Tree) (S D p : List Bytes) : Option Bool :=
  if D <+: p then t.kindAt (S ++ p.drop D.length) else if S <+: p then none else t.kindAt p

theorem kindAt_eq_of_drop {t : Tree} {S D p : List Bytes} {e : Entry Bytes}
    (hS : t.entryAt S = some e) (hp : D <+: p) :
    t.kindAt (S ++ p.drop D.length) = entryKindAt e (p.drop D.length) ∧
      p = D ++ p.drop D.length := by
  obtain ⟨s, rfl⟩ := hp
  rw [List.drop_left]
  exact ⟨kindAt_append hS s, rfl⟩

/-- An entry and one that is not below it: neither is above the other when the second has no kids. -/
theorem not_prefix_of_kids_nil {t : Tree} {S D : List Bytes} {e e' : Entry Bytes}
    (hS : t.entryAt S = some e) (hD : t.entryAt D = some e') (hkids : e'.kids = .nil)
    (hout : S <+: D → D = S) (hne : D ≠ S) {p : List Bytes} (hp : D <+: p) : ¬ S <+: p := by
  intro hSp
  rcases List.prefix_or_prefix_of_prefix hSp hp with hSD | hDS
  · exact hne (hout hSD)
  · obtain ⟨s, rfl⟩ := hDS
    have hs : s ≠ [] := by
      rintro rfl
      exact hne (List.append_nil D).symm
    obtain ⟨x, xs, rfl⟩ := List.exists_cons_of_ne_nil hs
    have hkind := kindAt_append hD (x :: xs)
    rw [kindAt, hS] at hkind
    simp [entryKindAt, hkids, kindAt_cons, find?] at hkind

/-- The tree after the move onto an entry without kids. -/
theorem kindAt_replaced {P : Bytes → Prop} {t : Tree} (hv : t.Valid P) {q : List Bytes} {n : Bytes}
    {D : List Bytes} {e e' : Entry Bytes} (hS : t.entryAt (q ++ [n]) = some e)
    (hD : t.entryAt D = some e') (hnode : e'.isNode = e.isNode) (hkids : e'.kids = .nil)
    (hout : q ++ [n] <+: D → D = q ++ [n]) (hne : D ≠ q ++ [n]) (p : List Bytes) :
    (if e.kids = .nil then t.remove q n else (t.remove q n).setKids D e.kids).kindAt p =
      movedKind t (q ++ [n]) D p := by
  have hremove := kindAt_remove hv hS
  have hold : ∀ s, (t.remove q n).kindAt (D ++ s) = entryKindAt e' s := fun s => by
    rw [hremove, if_neg (not_prefix_of_kids_nil hS hD hkids hout hne (List.prefix_append D s)),
      kindAt_append hD]
  have htop : e.kids ≠ .nil → ∃ k, (t.remove q n).entryAt D = some (.node k) := by
    intro hk
    refine exists_node_of_kindAt ?_
    rw [← List.append_nil D, hold, entryKindAt, if_pos rfl, hnode, isNode_of_kids_ne_nil hk]
  rw [movedKind]
  by_cases hp : D <+: p
  · obtain ⟨hkind, hsplit⟩ := kindAt_eq_of_drop (D := D) hS hp
    rw [if_pos hp, hkind]
    generalize p.drop D.length = s at hsplit ⊢
    subst hsplit
    by_cases hk : e.kids = .nil
    · rw [if_pos hk, hold, entryKindAt, entryKindAt, hnode, hkids, hk]
    · rw [if_neg hk]
      obtain ⟨k', hk'⟩ := htop hk
      rw [kindAt_setKids hk', if_pos hp, List.drop_left, entryKindAt]
      split
      · rename_i hs
        rw [hs, kindAt_nil, isNode_of_kids_ne_nil hk]
      · rfl
  · rw [if_neg hp, ← hremove]
    by_cases hk : e.kids = .nil
    · rw [if_pos hk]
    · obtain ⟨k', hk'⟩ := htop hk
      rw [if_neg hk, kindAt_setKids hk', if_neg hp]

/-- The tree after the move to where nothing is. -/
theorem kindAt_created {P : Bytes → Prop} {t k : Tree} (hv : t.Valid P) {q d : List Bytes}
    {n name : Bytes} {e : Entry Bytes} (hS : t.entryAt (q ++ [n]) = some e)
    (hd : (t.remove q n).entryAt d = some (.node k)) (hnew : name ∉ k.names) (p : List Bytes) :
    ((t.remove q n).insert d name e).kindAt p = movedKind t (q ++ [n]) (d ++ [name]) p := by
  rw [kindAt_insert_entry hd hnew, movedKind, ← kindAt_remove hv hS]
  by_cases hp : d ++ [name] <+: p
  · rw [if_pos hp, if_pos hp, (kindAt_eq_of_drop hS hp).1, List.length_append, List.length_singleton]
  · rw [if_neg hp, if_neg hp]

theorem valid_created {t k : Tree} (hv : t.Valid NameOk) {q d : List Bytes} {n name : Bytes}
    {e : Entry Bytes} (hS : t.entryAt (q ++ [n]) = some e)
    (hd : (t.remove q n).entryAt d = some (.node k)) (hnew : name ∉ k.names) (hname : NameOk name) :
    ((t.remove q n).insert d name e).Valid NameOk := by
  obtain ⟨c, l, r, rfl, rfl, hc, hl⟩ := exists_plug_of_entryAt hS
  obtain ⟨hvl, hvcons, hnot⟩ := (valid_append _ _).mp (Valid.of_plug hv)
  obtain ⟨-, -, hvk, hvr⟩ := (valid_cons _ _ _).mp hvcons
  have hv₁ : (plug c (l ++ r)).Valid NameOk := by
    refine hv.replug ((valid_append _ _).mpr ⟨hvl, hvr, fun x hx hxr => hnot x hx ?_⟩)
    cases e <;> simp [hxr]
  rw [remove_plug hc hl] at hd ⊢
  obtain ⟨c₁, hplug, rfl, hc₁⟩ := exists_plug_of_entryAt_node hd
  rw [hplug] at hv₁ ⊢
  rw [insert_plug hc₁]
  refine hv₁.replug ((valid_append _ _).mpr ⟨Valid.of_plug hv₁, ?_, fun x hx hxn => hnew ?_⟩)
  · exact (valid_cons _ _ _).mpr ⟨hname, by simp, hvk, valid_nil⟩
  · have hx' : x = name := by cases e <;> simpa using hxn
    exact hx' ▸ hx

namespace FsBuf

/-- A rename that returns 0 has moved the source to the destination exactly when these are different
paths and, if nothing was at the destination, the source was not all there was in the tree and there
was memory for the new entry. -/
theorem renamePath_moves_iff {b b' : FsBuf} {root : Bytes} {t : Tree} (h : Represents b root t)
    {src dst : CPath} {q d : List Bytes} {n name : Bytes} {e : Entry Bytes} {k₀ : Tree}
    (hres : resolve root t src.bytes = some (q ++ [n])) (hentry : t.entryAt (q ++ [n]) = some e)
    (hD : address root dst.bytes = some (d ++ [name])) (hd : t.entryAt d = some (.node k₀))
    (hout : q ++ [n] <+: d ++ [name] → d ++ [name] = q ++ [n]) {heap : Heap}
    {changes ch : List FsChange}
    (hret : b.renamePath heap src.bytes dst.bytes changes = some (.ok, b', ch)) :
    (∃ t', Represents b' root t' ∧ ∀ p, t'.kindAt p = movedKind t (q ++ [n]) (d ++ [name]) p) ↔
      d ++ [name] ≠ q ++ [n] ∧ (t.entryAt (d ++ [name]) = none → t.remove q n ≠ .nil ∧
        ∀ k, (t.remove q n).entryAt d = some (.node k) →
          ¬ GrowthFails { b with tail := b.firstNameOff + treeSize (t.remove q n) } heap.realloc
            (renameInsertSize d k name e.isNode)) := by
  cases hmiss : t.entryAt (d ++ [name]) with
  | some e' =>
    obtain ⟨hnode, hkids, hrep, -, -⟩ := renamePath_replaces h hres hentry hD hd hmiss hout hret
    have hmoved := kindAt_replaced h.valid hentry hmiss hnode hkids hout
    constructor
    · rintro ⟨t', hrep', hkind⟩
      refine ⟨fun hsame => ?_, by simp⟩
      -- the entry was removed and is not there any more
      obtain rfl : e' = e := Option.some.inj (hmiss.symm.trans (hsame ▸ hentry))
      rw [if_pos hkids] at hrep
      have hgone := hrep.kindAt_unique hrep' (q ++ [n])
      rw [kindAt_remove h.valid hentry, if_pos List.prefix_rfl, hkind, movedKind, hsame,
        if_pos List.prefix_rfl, List.drop_length, List.append_nil, kindAt, hentry] at hgone
      simp at hgone
    · rintro ⟨hne, -⟩
      exact ⟨_, hrep, hmoved hne⟩
  | none =>
    have hout' : ¬ q ++ [n] <+: d ++ [name] := by
      intro hpre
      rw [hout hpre, hentry] at hmiss
      simp at hmiss
    have hne : d ++ [name] ≠ q ++ [n] := fun hsame => hout' (hsame ▸ List.prefix_rfl)
    obtain ⟨k, hk, hnew, hname, hcase⟩ := renamePath_creates h hres hentry hD hd hmiss hout' hret
    have hmoved := kindAt_created h.valid hentry hk hnew
    have hshort : b'.tail < b'.firstNameOff + treeSize ((t.remove q n).insert d name e) →
        ¬ ∃ t', Represents b' root t' ∧ ∀ p, t'.kindAt p = movedKind t (q ++ [n]) (d ++ [name]) p := by
      rintro hlt ⟨t', hrep', hkind⟩
      have hsize := treeSize_eq_of_kindAt hrep'.valid (valid_created h.valid hentry hk hnew hname)
        fun p => (hkind p).trans (hmoved p).symm
      have htail := hrep'.tail_eq
      omega
    rcases hcase with ⟨hfail, -, hlt⟩ | ⟨hroom, -, ⟨hempty, hlt⟩ | ⟨hne', hrep, -⟩⟩
    · refine iff_of_false (hshort hlt) fun hcond => ?_
      exact (hcond.2 rfl).2 k hk hfail
    · refine iff_of_false (hshort hlt) fun hcond => ?_
      exact (hcond.2 rfl).1 hempty
    · refine iff_of_true ⟨_, hrep, hmoved⟩ ⟨hne, fun _ => ⟨hne', fun k' hk' => ?_⟩⟩
      obtain rfl : k = k' := by simpa [hk] using hk'
      exact hroom

/-- An allocator that never fails. -/
def freeHeap : Heap := ⟨fun _ => true, fun _ => true, fun _ => true, ⟨0, 0⟩⟩

/-- Two files in the root. -/
def twoFiles : Tree := .leaf [97] (.leaf [98] .nil)

/-- The path `/a` of the first file. -/
def pathA : CPath := ⟨[47, 97], by decide, by decide⟩

/-- The path `/c` of neither file. -/
def pathC : CPath := ⟨[47, 99], by decide, by decide⟩

theorem represents_twoFiles : Represents (imageBuf [47] twoFiles 64) [47] twoFiles :=
  represents_imageBuf _ _ _ ⟨rfl, rfl, by decide⟩ (by decide) (by decide) (by decide)

theorem resolve_pathA : resolve [47] twoFiles pathA.bytes = some ([] ++ [[97]]) := by decide

theorem entryAt_pathA : twoFiles.entryAt ([] ++ [[97]]) = some .leaf := by decide

theorem entryAt_root_twoFiles : twoFiles.entryAt [] = some (.node twoFiles) := rfl

/-- `/a` renamed to `/c` beside `/b`. -/
theorem renamePath_moves_iff_sample : ∃ b' ch t',
    (imageBuf [47] twoFiles 64).renamePath freeHeap pathA.bytes pathC.bytes [] =
      some (.ok, b', ch) ∧ Represents b' [47] t' ∧
    ∀ p, t'.kindAt p = movedKind twoFiles [[97]] [[99]] p := by
  obtain ⟨⟨ret, b', ch⟩, heq, hret⟩ : ∃ r,
      (imageBuf [47] twoFiles 64).renamePath freeHeap pathA.bytes pathC.bytes [] = some r ∧
        r.1 = .ok := by
    have hok : ((imageBuf [47] twoFiles 64).renamePath freeHeap pathA.bytes pathC.bytes []).map
        (·.1) = some .ok := rfl
    simpa [Option.map_eq_some_iff] using hok
  obtain rfl : ret = .ok := hret
  have haddr : address [47] pathC.bytes = some ([] ++ [[99]]) := by decide
  have hmoves := renamePath_moves_iff represents_twoFiles resolve_pathA entryAt_pathA haddr
    entryAt_root_twoFiles (by decide) heq
  obtain ⟨t', hrep, hkind⟩ := hmoves.mpr ⟨by decide, fun _ => ⟨by decide, fun k hk => by
    obtain rfl : twoFiles.remove [] [97] = k := Entry.node.inj (Option.some.inj hk)
    decide⟩⟩
  exact ⟨b', ch, t', heq, hrep, hkind⟩

/-- `/a` renamed to itself is gone. -/
theorem renamePath_same_path : ∃ b' ch,
    (imageBuf [47] twoFiles 64).renamePath freeHeap pathA.bytes pathA.bytes [] =
      some (.ok, b', ch) ∧
    ¬ ∃ t', Represents b' [47] t' ∧ ∀ p, t'.kindAt p = movedKind twoFiles [[97]] [[97]] p := by
  obtain ⟨⟨ret, b', ch⟩, heq, hret⟩ : ∃ r,
      (imageBuf [47] twoFiles 64).renamePath freeHeap pathA.bytes pathA.bytes [] = some r ∧
        r.1 = .ok := by
    have hok : ((imageBuf [47] twoFiles 64).renamePath freeHeap pathA.bytes pathA.bytes []).map
        (·.1) = some .ok := rfl
    simpa [Option.map_eq_some_iff] using hok
  obtain rfl : ret = .ok := hret
  refine ⟨b', ch, heq, ?_⟩
  rintro ⟨t', hrep', hkind⟩
  have haddr : address [47] pathA.bytes = some ([] ++ [[97]]) := by decide
  obtain ⟨-, -, hrep, -, -⟩ := renamePath_replaces represents_twoFiles resolve_pathA entryAt_pathA
    haddr entryAt_root_twoFiles entryAt_pathA (by decide) heq
  exact absurd ((hrep.kindAt_unique hrep' [[97]]).trans (hkind [[97]])) (by decide)

end FsBuf

end DeepinAnything
