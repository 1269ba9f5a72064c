import Mathlib.Data.List.Pairwise
import DeepinAnything.FsBuf.Lookup

/-!
# Well-formed images

What an image has to be like, said about its bytes and without a tree: blocks of entries one after
the other, each closed by a parent tag, the links between them, and their order. The image of every
tree is well formed; `Represents.wellFormedImage` is the way from the tree to the bytes.
-/

namespace DeepinAnything

open ByteMem OrderedForest OrderedForest.Forest

/-! ## Entries and blocks -/

/-- An entry in the buffer. `kids` is `none` for a file; for a directory it is the offset of its
kids, 0 when it has none. -/
structure RawEntry where
  off : ℕ
  name : Bytes
  kids : Option ℕ

namespace RawEntry

variable (e : RawEntry)

/-- Where the tag stands. -/
def tagOff : ℕ := e.off + e.name.length + 1

/-- The bytes of the tag: one for a file, four for a directory, relative to the tag. -/
def tagBytes : Bytes :=
  match e.kids with
  | none => [fsTagFile]
  | some k => le32 (4 * (if k = 0 then 0 else k - e.tagOff) + fsTagDir)

/-- Where the next entry stands. -/
def stop : ℕ := e.tagOff + e.tagBytes.length

/-- The entry is in the buffer. -/
structure Stands (m : Mem) : Prop where
  name_ne : e.name ≠ []
  zero : (0 : UInt8) ∉ e.name
  kids_gt : ∀ k, e.kids = some k → k ≠ 0 → e.tagOff < k
  bytes : m.Holds e.off (e.name ++ 0 :: e.tagBytes)

/-- The kids offset, if there is one. -/
def kidsOff? : Option ℕ := e.kids.filter (· ≠ 0)

theorem kidsOff?_eq_some_iff {k : ℕ} : e.kidsOff? = some k ↔ e.kids = some k ∧ k ≠ 0 := by
  simp [kidsOff?, Option.filter_eq_some_iff]

theorem off_lt_stop : e.off < e.stop := by
  unfold stop tagOff; omega

end RawEntry

/-- Entries one behind the other, from `off` to `stop`. -/
def EntriesStand (m : Mem) : ℕ → List RawEntry → ℕ → Prop
  | off, [], stop => off = stop
  | off, e :: es, stop => e.off = off ∧ e.Stands m ∧ EntriesStand m e.stop es stop

/-- A block: siblings and the parent tag at `stop`, which leads back to the directory at `parent`,
or to the root for 0. -/
structure Block where
  off : ℕ
  entries : List RawEntry
  stop : ℕ
  parent : ℕ

namespace Block

/-- The block is in the buffer. -/
structure Stands (m : Mem) (B : Block) : Prop where
  entries : EntriesStand m B.off B.entries B.stop
  ne_nil : B.entries ≠ []
  nodup : (B.entries.map RawEntry.name).Nodup
  parent_le : B.parent ≤ B.stop
  up : m.Holds B.stop (0 :: le32 (4 * (if B.parent = 0 then 0 else B.stop + 1 - B.parent) + fsTagDir))

/-- The kids offsets of the directories of a block, in their order. -/
def kidsOffs (B : Block) : List ℕ := B.entries.filterMap RawEntry.kidsOff?

end Block

/-- Blocks one behind the other, from `off` to `stop`. -/
def Tiles (m : Mem) : ℕ → List Block → ℕ → Prop
  | off, [], stop => off = stop
  | off, B :: bs, stop => B.off = off ∧ B.Stands m ∧ Tiles m (B.stop + 5) bs stop

/-- Depth-first pre-order: the blocks come in the order in which a search meets them that has
`stack` still to visit and visits the kids of a block before anything else. -/
def DepthFirst : List ℕ → List Block → Prop
  | [], [] => True
  | k :: stack, B :: bs => B.off = k ∧ DepthFirst (B.kidsOffs ++ stack) bs
  | _, _ => False

/-- The entries of all blocks. -/
def allEntries (bs : List Block) : List RawEntry := bs.flatMap Block.entries

/-- The links between the root's block and the others. -/
structure Linked (top : Block) (rest : List Block) : Prop where
  top_parent : top.parent = 0
  owner : ∀ B ∈ rest, ∃! d, d ∈ allEntries (top :: rest) ∧ d.kids = some B.off
  parent : ∀ B ∈ rest, ∀ d ∈ allEntries (top :: rest), d.kids = some B.off → B.parent = d.off
  target : ∀ d ∈ allEntries (top :: rest), ∀ k ≠ 0, d.kids = some k → ∃ B ∈ rest, B.off = k
  bare : ∀ d ∈ allEntries (top :: rest), d.kids = some 0 → ∀ B ∈ rest, B.parent ≠ d.off
  order : DepthFirst [top.off] (top :: rest)

/-- A well-formed image. -/
structure WellFormed (b : FsBuf) : Prop where
  first_le : b.firstNameOff ≤ b.tail
  tail_le : b.tail ≤ b.capacity
  blocks : b.tail = b.firstNameOff ∨
    ∃ top rest, Tiles b.head b.firstNameOff (top :: rest) b.tail ∧ Linked top rest

/-! ## Consequences of the order -/

variable {m : Mem}

theorem tiles_append {off stop : ℕ} {xs ys : List Block} (mid : ℕ) (hx : Tiles m off xs mid)
    (hy : Tiles m mid ys stop) : Tiles m off (xs ++ ys) stop := by
  induction xs generalizing off with
  | nil =>
    obtain rfl : off = mid := hx
    exact hy
  | cons B xs ih => exact ⟨hx.1, hx.2.1, ih hx.2.2⟩

theorem EntriesStand.increasing {off stop : ℕ} {es : List RawEntry} (h : EntriesStand m off es stop) :
    off ≤ stop ∧ (∀ e ∈ es, off ≤ e.off ∧ e.off < stop) ∧ (es.map RawEntry.off).Pairwise (· < ·) := by
  induction es generalizing off with
  | nil =>
    obtain rfl : off = stop := h
    exact ⟨le_rfl, by simp, by simp⟩
  | cons e es ih =>
    obtain ⟨rfl, -, hes⟩ := h
    obtain ⟨hle, hin, hpair⟩ := ih hes
    have hlt := e.off_lt_stop
    refine ⟨by omega, ?_, ?_⟩
    · intro x hx
      rcases List.mem_cons.mp hx with rfl | hx
      · omega
      · have := hin x hx
        omega
    · refine List.pairwise_cons.mpr ⟨?_, hpair⟩
      intro k hk
      obtain ⟨x, hx, rfl⟩ := List.mem_map.mp hk
      have := (hin x hx).1
      omega

/-- The offsets grow from block to block and from entry to entry. -/
theorem Tiles.increasing {off stop : ℕ} {bs : List Block} (h : Tiles m off bs stop) :
    (∀ B ∈ bs, off ≤ B.off) ∧ (bs.map Block.off).Pairwise (· < ·) ∧
      (∀ e ∈ allEntries bs, off ≤ e.off) ∧ ((allEntries bs).map RawEntry.off).Pairwise (· < ·) := by
  induction bs generalizing off with
  | nil => simp [allEntries]
  | cons B bs ih =>
    obtain ⟨rfl, hB, hbs⟩ := h
    obtain ⟨hle, hpair, hele, hepair⟩ := ih hbs
    obtain ⟨hstop, hin, hown⟩ := hB.entries.increasing
    have hsplit : allEntries (B :: bs) = B.entries ++ allEntries bs := rfl
    refine ⟨?_, ?_, ?_, ?_⟩
    · intro C hC
      rcases List.mem_cons.mp hC with rfl | hC
      · exact le_rfl
      · have := hle C hC
        omega
    · refine List.pairwise_cons.mpr ⟨?_, hpair⟩
      intro k hk
      obtain ⟨C, hC, rfl⟩ := List.mem_map.mp hk
      have := hle C hC
      omega
    · intro e he
      rcases List.mem_append.mp (hsplit ▸ he) with he | he
      · exact (hin e he).1
      · have := hele e he
        omega
    · rw [hsplit, List.map_append]
      refine List.pairwise_append.mpr ⟨hown, hepair, ?_⟩
      intro x hx y hy
      obtain ⟨e, he, rfl⟩ := List.mem_map.mp hx
      obtain ⟨f, hf, rfl⟩ := List.mem_map.mp hy
      have := (hin e he).2
      have := hele f hf
      omega

theorem EntriesStand.add_le_of_ne_nil {off stop : ℕ} {es : List RawEntry}
    (h : EntriesStand m off es stop) (hne : es ≠ []) : off + 3 ≤ stop := by
  cases es with
  | nil => exact absurd rfl hne
  | cons e es =>
    obtain ⟨rfl, hstands, hes⟩ := h
    have hname := List.length_pos_of_ne_nil hstands.name_ne
    have htag : 1 ≤ e.tagBytes.length := by
      unfold RawEntry.tagBytes
      split <;> simp
    have hle := hes.increasing.1
    unfold RawEntry.stop RawEntry.tagOff at hle
    omega

/-- A block takes eight bytes at least, five of them for the parent tag. -/
theorem Tiles.add_le {off stop : ℕ} {bs : List Block} (h : Tiles m off bs stop) :
    off + 8 * bs.length ≤ stop := by
  induction bs generalizing off with
  | nil => exact Nat.le_of_eq h
  | cons B bs ih =>
    obtain ⟨rfl, hB, hbs⟩ := h
    have hlt := hB.entries.add_le_of_ne_nil hB.ne_nil
    have hle := ih hbs
    rw [List.length_cons]
    omega

/-- A tree that is not empty takes eight bytes at least. -/
theorem WellFormed.tail_cases {b : FsBuf} (h : WellFormed b) :
    b.tail = b.firstNameOff ∨ b.firstNameOff + 8 ≤ b.tail := by
  rcases h.blocks with hempty | ⟨top, rest, htiles, -⟩
  · exact .inl hempty
  · right
    have hle := htiles.add_le
    rw [List.length_cons] at hle
    omega

/-- A search meets each kids offset once. -/
theorem DepthFirst.perm {stack : List ℕ} {bs : List Block} (h : DepthFirst stack bs) :
    (stack ++ bs.flatMap Block.kidsOffs).Perm (bs.map Block.off) := by
  induction bs generalizing stack with
  | nil =>
    cases stack with
    | nil => exact List.Perm.nil
    | cons k stack => exact h.elim
  | cons B bs ih =>
    cases stack with
    | nil => exact h.elim
    | cons k stack =>
      obtain ⟨rfl, hbs⟩ := h
      refine List.Perm.cons _ (List.Perm.trans ?_ (ih hbs))
      rw [List.flatMap_cons, List.append_assoc]
      exact List.perm_append_comm_assoc _ _ _

theorem flatMap_kidsOffs (bs : List Block) :
    bs.flatMap Block.kidsOffs = (allEntries bs).filterMap RawEntry.kidsOff? := by
  induction bs with
  | nil => rfl
  | cons B bs ih =>
    have hsplit : allEntries (B :: bs) = B.entries ++ allEntries bs := rfl
    rw [List.flatMap_cons, ih, hsplit, List.filterMap_append, Block.kidsOffs]

/-- In the order of a search every block is the target of one directory, and if that is the one its
parent tag leads to, everything is linked. -/
theorem linked_of_depthFirst {off stop : ℕ} {top : Block} {rest : List Block}
    (htiles : Tiles m off (top :: rest) stop) (hpos : 0 < off) (htop : top.parent = 0)
    (horder : DepthFirst [top.off] (top :: rest))
    (hback : ∀ B ∈ rest, ∃ d ∈ allEntries (top :: rest), d.kids = some B.off ∧ d.off = B.parent) :
    Linked top rest := by
  obtain ⟨hle, hincr, hele, heincr⟩ := htiles.increasing
  have hperm : ((allEntries (top :: rest)).filterMap RawEntry.kidsOff?).Perm (rest.map Block.off) := by
    have := horder.perm
    rw [flatMap_kidsOffs] at this
    exact (List.perm_cons _).mp this
  have hnodup : ((allEntries (top :: rest)).filterMap RawEntry.kidsOff?).Nodup := by
    refine hperm.nodup_iff.mpr ?_
    exact ((List.pairwise_cons.mp hincr).2).imp fun h => Nat.ne_of_lt h
  have hBpos : ∀ B ∈ rest, B.off ≠ 0 := by
    intro B hB
    have := hle B (List.mem_cons_of_mem _ hB)
    omega
  have hunique : ∀ d ∈ allEntries (top :: rest), ∀ d' ∈ allEntries (top :: rest), ∀ k ≠ 0,
      d.kids = some k → d'.kids = some k → d = d' := by
    intro d hd d' hd' k hk hdk hdk'
    by_contra hne
    have hpair := List.pairwise_filterMap.mp hnodup
    have hsymm : Std.Symm fun d d' : RawEntry =>
        ∀ x, d.kidsOff? = some x → ∀ y, d'.kidsOff? = some y → x ≠ y :=
      ⟨fun _ _ h x hx y hy hxy => h y hy x hx hxy.symm⟩
    exact hpair.forall hd hd' hne k (d.kidsOff?_eq_some_iff.mpr ⟨hdk, hk⟩) k
      (d'.kidsOff?_eq_some_iff.mpr ⟨hdk', hk⟩) rfl
  refine ⟨htop, ?_, ?_, ?_, ?_, horder⟩
  · intro B hB
    obtain ⟨d, hd, hdB, -⟩ := hback B hB
    exact ⟨d, ⟨hd, hdB⟩, fun d' h' => hunique d' h'.1 d hd B.off (hBpos B hB) h'.2 hdB⟩
  · intro B hB d hd hdB
    obtain ⟨d', hd', hdB', hoff⟩ := hback B hB
    rw [← hoff, hunique d hd d' hd' B.off (hBpos B hB) hdB hdB']
  · intro d hd k hk hdk
    have hmem : k ∈ (allEntries (top :: rest)).filterMap RawEntry.kidsOff? :=
      List.mem_filterMap.mpr ⟨d, hd, d.kidsOff?_eq_some_iff.mpr ⟨hdk, hk⟩⟩
    exact List.mem_map.mp (hperm.mem_iff.mp hmem)
  · -- the owner of the block would be an entry at the same offset, and have kids
    intro d hd hd0 B hB hparent
    obtain ⟨d', hd', hdB', hoff⟩ := hback B hB
    have hsame : d = d' := by
      have hpair := List.pairwise_map.mp heincr
      by_contra hne
      have hsymm : Std.Symm fun d d' : RawEntry => d.off ≠ d'.off := ⟨fun _ _ h => h.symm⟩
      exact (hpair.imp fun h => Nat.ne_of_lt h).forall hd hd' hne (hparent.symm.trans hoff.symm)
    rw [hsame, hdB'] at hd0
    exact hBpos B hB (Option.some.inj hd0)

/-! ## The blocks of a tree -/

/-- The entries of siblings that stand at `off`, when the blocks below them start at `below`. -/
def rawEntries : ℕ → ℕ → Tree → List RawEntry
  | _, _, .nil => []
  | off, below, .leaf n r => ⟨off, n, none⟩ :: rawEntries (off + n.length + 2) below r
  | off, below, .node n k r =>
    ⟨off, n, some (if k = .nil then 0 else below)⟩ ::
      rawEntries (off + n.length + 5) (below + treeSize k) r

/-- The block of a listing. -/
def blockOf (off parent : ℕ) (t : Tree) : Block :=
  ⟨off, rawEntries off (off + runSize t) t, off + entriesSize t, parent⟩

/-- The blocks below siblings. -/
def blocksBelow : ℕ → ℕ → Tree → List Block
  | _, _, .nil => []
  | off, below, .leaf n r => blocksBelow (off + n.length + 2) below r
  | off, below, .node n k r =>
    (if k = .nil then [] else blockOf below off k :: blocksBelow below (below + runSize k) k) ++
      blocksBelow (off + n.length + 5) (below + treeSize k) r

theorem map_name_rawEntries (off below : ℕ) (t : Tree) :
    (rawEntries off below t).map RawEntry.name = t.names := by
  induction t generalizing off below with
  | nil => rfl
  | leaf n r ih => simp [rawEntries, ih]
  | node n k r _ ih => simp [rawEntries, ih]

theorem rawEntries_ne_nil {off below : ℕ} {t : Tree} (h : t ≠ .nil) : rawEntries off below t ≠ [] := by
  cases t with
  | nil => exact absurd rfl h
  | leaf n r => exact List.cons_ne_nil _ _
  | node n k r => exact List.cons_ne_nil _ _

theorem EntriesAt.entriesStand {off d : ℕ} {t : Tree} (h : EntriesAt m off d t) (hv : t.Valid NameOk) :
    EntriesStand m off (rawEntries off (off + entriesSize t + 5 + d) t) (off + entriesSize t) := by
  induction t generalizing off d with
  | nil => rfl
  | leaf n r ih =>
    obtain ⟨hn, hr⟩ := h
    have hstop : off + entriesSize (.leaf n r) = off + n.length + 2 + entriesSize r := by
      rw [entriesSize_leaf]; omega
    rw [hstop]
    exact ⟨rfl, ⟨hv.1.1, hv.1.2.1, by simp, hn⟩, ih hr hv.2.2⟩
  | node n k r _ ih =>
    obtain ⟨hn, hr⟩ := h
    have hstop : off + entriesSize (.node n k r) = off + n.length + 5 + entriesSize r := by
      rw [entriesSize_node]; omega
    have hbelow : off + n.length + 5 + entriesSize r + 5 + d + treeSize k =
        off + n.length + 5 + entriesSize r + 5 + (d + treeSize k) := by omega
    have hstand := ih hr hv.2.2.2
    rw [hstop]
    refine ⟨rfl, ⟨hv.1.1, hv.1.2.1, ?_, ?_⟩, ?_⟩
    · intro x hx hx0
      by_cases hk : k = .nil
      · simp [hk] at hx
        omega
      · simp only [hk, if_false, Option.some.injEq] at hx
        simp only [RawEntry.tagOff]
        omega
    · have hrel : (if (if k = .nil then 0 else off + n.length + 5 + entriesSize r + 5 + d) = 0 then 0
          else (if k = .nil then 0 else off + n.length + 5 + entriesSize r + 5 + d) -
            (off + n.length + 1)) = if k = .nil then 0 else 9 + entriesSize r + d := by
        split <;> split <;> omega
      simp only [RawEntry.tagBytes, RawEntry.tagOff, hrel]
      exact hn
    · rw [hbelow]
      exact hstand

theorem RunAt.blockStands {off up parent : ℕ} {t : Tree} (h : RunAt m off up t) (ht : t ≠ .nil)
    (hv : t.Valid NameOk) (hle : parent ≤ off + entriesSize t)
    (hup : up = if parent = 0 then 0 else off + entriesSize t + 1 - parent) :
    (blockOf off parent t).Stands m := by
  obtain ⟨hent, hclose⟩ := h ht
  have hstand := hent.entriesStand hv
  rw [Nat.add_zero, Nat.add_assoc off, ← runSize_of_ne_nil ht] at hstand
  refine ⟨hstand, rawEntries_ne_nil ht, ?_, hle, ?_⟩
  · show ((rawEntries _ _ t).map RawEntry.name).Nodup
    rw [map_name_rawEntries]
    exact hv.nodup_names
  · subst hup
    exact hclose

theorem BelowAt.tiles {off d : ℕ} {t : Tree} (h : BelowAt m (off + entriesSize t + 5 + d) d t)
    (hv : t.Valid NameOk) (hpos : 0 < off) :
    Tiles m (off + entriesSize t + 5 + d) (blocksBelow off (off + entriesSize t + 5 + d) t)
      (off + entriesSize t + 5 + d + belowSize t) := by
  induction t generalizing off d with
  | nil => rfl
  | leaf n r ih =>
    have hstop : off + entriesSize (.leaf n r) = off + n.length + 2 + entriesSize r := by
      rw [entriesSize_leaf]; omega
    rw [hstop] at h ⊢
    exact ih h hv.2.2 (by omega)
  | node n k r ihk ih =>
    have hstop : off + entriesSize (.node n k r) = off + n.length + 5 + entriesSize r := by
      rw [entriesSize_node]; omega
    rw [hstop] at h ⊢
    obtain ⟨hrun, hkids, hrest⟩ := h
    generalize hbelow : off + n.length + 5 + entriesSize r + 5 + d = below at hrun hkids hrest ⊢
    have hbelow' : below + treeSize k =
        off + n.length + 5 + entriesSize r + 5 + (d + treeSize k) := by omega
    have htiles := ih (d := d + treeSize k) (by rwa [hbelow'] at hrest) hv.2.2.2 (by omega)
    rw [← hbelow'] at htiles
    rw [blocksBelow, belowSize_node]
    refine tiles_append (below + treeSize k) ?_ (by rwa [← Nat.add_assoc])
    by_cases hk : k = .nil
    · simp [hk, Tiles]
    · rw [if_neg hk]
      have hrunSize := runSize_of_ne_nil hk
      have hkids' := @ihk below 0 (by
        rwa [Nat.add_zero, Nat.add_assoc below, ← hrunSize]) hv.2.2.1 (by omega)
      rw [Nat.add_zero, Nat.add_assoc below, ← hrunSize] at hkids'
      refine ⟨rfl, hrun.blockStands hk hv.2.2.1 (by omega) ?_, ?_⟩
      · rw [if_neg (by omega)]
        omega
      · show Tiles m (below + entriesSize k + 5) _ _
        rw [Nat.add_assoc below, ← hrunSize, treeSize, ← Nat.add_assoc]
        exact hkids'

/-- A search that has the kids of siblings to visit passes through the blocks below them. -/
theorem depthFirst_blocksBelow {off below : ℕ} {t : Tree} (hpos : 0 < below) (stack : List ℕ)
    (rest : List Block) :
    DepthFirst ((rawEntries off below t).filterMap RawEntry.kidsOff? ++ stack)
      (blocksBelow off below t ++ rest) ↔ DepthFirst stack rest := by
  induction t generalizing off below stack rest with
  | nil => exact Iff.rfl
  | leaf n r ih => exact ih hpos stack rest
  | node n k r ihk ih =>
    by_cases hk : k = .nil
    · subst hk
      exact ih hpos stack rest
    · have hkids : RawEntry.kidsOff? ⟨off, n, some below⟩ = some below := by
        rw [RawEntry.kidsOff?_eq_some_iff]
        exact ⟨rfl, by omega⟩
      have hrec := @ih (off + n.length + 5) (below + treeSize k) (by omega) stack rest
      rw [rawEntries, blocksBelow, if_neg hk, if_neg hk, List.filterMap_cons, hkids, ← hrec]
      simp only [List.cons_append, List.append_assoc]
      exact (and_iff_right rfl).trans (ihk (by omega) _ _)

/-- The parent tag of each block below siblings leads to the directory whose kids stand there. -/
theorem owner_blocksBelow {off below : ℕ} {t : Tree} :
    ∀ B ∈ blocksBelow off below t,
      ∃ d ∈ rawEntries off below t ++ allEntries (blocksBelow off below t),
        d.kids = some B.off ∧ d.off = B.parent := by
  induction t generalizing off below with
  | nil => simp [blocksBelow]
  | leaf n r ih =>
    intro B hB
    obtain ⟨d, hd, hlink⟩ := ih B hB
    exact ⟨d, List.mem_cons_of_mem _ hd, hlink⟩
  | node n k r ihk ih =>
    intro B hB
    rw [blocksBelow] at hB ⊢
    rcases List.mem_append.mp hB with hB | hB
    · by_cases hk : k = .nil
      · simp [hk] at hB
      rw [if_neg hk] at hB ⊢
      rcases List.mem_cons.mp hB with rfl | hB
      · refine ⟨⟨off, n, some below⟩, ?_, rfl, rfl⟩
        rw [rawEntries, if_neg hk]
        exact List.mem_cons_self
      · obtain ⟨d, hd, hlink⟩ := ihk B hB
        refine ⟨d, List.mem_append_right _ ?_, hlink⟩
        rw [allEntries, List.flatMap_append, List.flatMap_cons]
        exact List.mem_append_left _ hd
    · obtain ⟨d, hd, hlink⟩ := ih B hB
      refine ⟨d, ?_, hlink⟩
      rcases List.mem_append.mp hd with hd | hd
      · exact List.mem_append_left _ (List.mem_cons_of_mem _ hd)
      · refine List.mem_append_right _ ?_
        rw [allEntries, List.flatMap_append]
        exact List.mem_append_right _ hd

theorem Represents.tail_eq_first_iff {b : FsBuf} {root : Bytes} {t : Tree}
    (h : Represents b root t) : b.tail = b.firstNameOff ↔ t = .nil := by
  have htail := h.tail_eq
  rw [← treeSize_eq_zero_iff]
  omega

/-- The blocks of an image in the order of their bytes. -/
def imageBlocks (base : ℕ) (t : Tree) : List Block :=
  blockOf base 0 t :: blocksBelow base (base + runSize t) t

theorem Represents.tiles {b : FsBuf} {root : Bytes} {t : Tree} (h : Represents b root t)
    (ht : t ≠ .nil) : Tiles b.head b.firstNameOff (imageBlocks b.firstNameOff t) b.tail := by
  have htail := h.tail_eq
  have hpos := h.first_pos
  have hrunSize := runSize_of_ne_nil ht
  have hblock : (blockOf b.firstNameOff 0 t).Stands b.head :=
    h.image.1.blockStands ht h.valid (Nat.zero_le _) rfl
  have hbelow := @BelowAt.tiles b.head b.firstNameOff 0 t (by
    rw [Nat.add_zero, Nat.add_assoc b.firstNameOff, ← hrunSize]
    exact h.image.2) h.valid (by omega)
  rw [Nat.add_zero, Nat.add_assoc b.firstNameOff, ← hrunSize, Nat.add_assoc b.firstNameOff,
    ← treeSize, ← htail] at hbelow
  refine ⟨rfl, hblock, ?_⟩
  show Tiles b.head (b.firstNameOff + entriesSize t + 5) _ _
  rwa [Nat.add_assoc b.firstNameOff, ← hrunSize]

/-- The image of a tree is well formed. -/
theorem Represents.wellFormedImage {b : FsBuf} {root : Bytes} {t : Tree} (h : Represents b root t) :
    WellFormed b := by
  have htail := h.tail_eq
  have hpos := h.first_pos
  refine ⟨by omega, h.sized.tail_le, ?_⟩
  by_cases ht : t = .nil
  · left
    rw [htail, ht, treeSize_nil, Nat.add_zero]
  right
  have htiles := h.tiles ht
  refine ⟨_, _, htiles, linked_of_depthFirst htiles (by omega) rfl ⟨rfl, ?_⟩ owner_blocksBelow⟩
  have horder := (@depthFirst_blocksBelow b.firstNameOff (b.firstNameOff + runSize t) t (by omega)
    [] []).mpr trivial
  rw [List.append_nil, List.append_nil] at horder
  rw [List.append_nil]
  exact horder

end DeepinAnything
