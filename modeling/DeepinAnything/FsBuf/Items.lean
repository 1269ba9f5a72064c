import DeepinAnything.FsBuf.ParallelSearch

/-!
# The items of an image

What a search meets in the image of a listing, in the order of the bytes: the entries, each with its
path below the listing and, for a directory with kids, the range of what is below it; and the parent
tags, as entries with an empty name. The range of a directory holds just the items whose path goes
through it.
-/

namespace DeepinAnything

open ByteMem OrderedForest OrderedForest.Forest

/-- An entry or a parent tag. `kids` is the range that a jump over the kids leaves out. -/
structure Item where
  off : ℕ
  path : List Bytes
  kids : Option JumpOff

namespace Item

/-- The name of an entry, empty for a parent tag. -/
def name (x : Item) : Bytes := x.path.getLast?.getD []

/-- The offset and the name. -/
def key (x : Item) : ℕ × Bytes := (x.off, x.name)

/-- The path of `x` goes through `y`. -/
def Below (x y : Item) : Prop := y.path <+: x.path ∧ y.path ≠ x.path

instance (x y : Item) : Decidable (x.Below y) := inferInstanceAs (Decidable (_ ∧ _))

end Item

@[simp] theorem Item.name_mk (off : ℕ) (p : List Bytes) (n : Bytes) (kids : Option JumpOff) :
    Item.name ⟨off, p ++ [n], kids⟩ = n := by
  simp [Item.name]

/-- The range of what is below a directory whose kids stand at `below`. -/
def kidsRange (below : ℕ) (k : Tree) : Option JumpOff :=
  if k = .nil then none else some ⟨below, below + treeSize k⟩

theorem mem_kidsRange {below : ℕ} {k : Tree} {j : JumpOff} (h : j ∈ kidsRange below k) :
    k ≠ .nil ∧ j = ⟨below, below + treeSize k⟩ ∧ 0 < treeSize k := by
  rw [kidsRange] at h
  split at h
  · simp at h
  · rename_i hk
    have : treeSize k ≠ 0 := fun h0 => hk (treeSize_eq_zero_iff.mp h0)
    exact ⟨hk, (Option.some.inj h).symm, by omega⟩

/-- The entries of siblings that stand at `off`, when the runs below them start at `below`. -/
def runItems : ℕ → ℕ → List Bytes → Tree → List Item
  | _, _, _, .nil => []
  | off, below, p, .leaf n r => ⟨off, p ++ [n], none⟩ :: runItems (off + n.length + 2) below p r
  | off, below, p, .node n k r =>
    ⟨off, p ++ [n], kidsRange below k⟩ :: runItems (off + n.length + 5) (below + treeSize k) p r

/-- The parent tag of the run of a listing. -/
def tagItem (off : ℕ) (p : List Bytes) (t : Tree) : Item := ⟨off + entriesSize t, p ++ [[]], none⟩

/-- What is below siblings. -/
def belowItems : ℕ → List Bytes → Tree → List Item
  | _, _, .nil => []
  | below, p, .leaf _ r => belowItems below p r
  | below, p, .node n k r =>
    (if k = .nil then []
      else runItems below (below + runSize k) (p ++ [n]) k ++
        tagItem below (p ++ [n]) k :: belowItems (below + runSize k) (p ++ [n]) k) ++
      belowItems (below + treeSize k) p r

/-- The items of the image of a listing. -/
def treeItems (off : ℕ) (p : List Bytes) (t : Tree) : List Item :=
  if t = .nil then []
  else runItems off (off + runSize t) p t ++ tagItem off p t :: belowItems (off + runSize t) p t

theorem belowItems_node (below : ℕ) (p : List Bytes) (n : Bytes) (k r : Tree) :
    belowItems below p (.node n k r) = treeItems below (p ++ [n]) k ++ belowItems (below + treeSize k) p r :=
  rfl

theorem mem_treeItems_iff {off : ℕ} {p : List Bytes} {t : Tree} {x : Item} :
    x ∈ treeItems off p t ↔ t ≠ .nil ∧ (x ∈ runItems off (off + runSize t) p t ∨ x = tagItem off p t ∨
      x ∈ belowItems (off + runSize t) p t) := by
  by_cases ht : t = .nil
  · simp [treeItems, ht]
  · simp [treeItems, ht]

/-! ## Where the items stand -/

/-- What an item of a run is like. -/
structure InRun (off below : ℕ) (p : List Bytes) (t : Tree) (x : Item) : Prop where
  le_off : off ≤ x.off
  off_lt : x.off < off + entriesSize t
  path_eq : ∃ n ∈ t.names, x.path = p ++ [n]
  kids : ∀ j ∈ x.kids, below ≤ j.start ∧ j.start < j.stop ∧ j.stop ≤ below + belowSize t

theorem inRun_of_mem {off below : ℕ} {p : List Bytes} {t : Tree} {x : Item}
    (h : x ∈ runItems off below p t) : InRun off below p t x := by
  induction t generalizing off below with
  | nil => simp [runItems] at h
  | leaf n r ih =>
    rcases List.mem_cons.mp h with rfl | h
    · exact ⟨le_rfl, Nat.lt_add_of_pos_right (by rw [entriesSize_leaf]; omega), ⟨n, by simp, rfl⟩, by simp⟩
    · obtain ⟨h₁, h₂, ⟨m, hm, hp⟩, h₄⟩ := ih h
      refine ⟨by omega, by rw [entriesSize_leaf]; omega, ⟨m, by simp [hm], hp⟩, h₄⟩
  | node n k r _ ih =>
    rcases List.mem_cons.mp h with rfl | h
    · refine ⟨le_rfl, Nat.lt_add_of_pos_right (by rw [entriesSize_node]; omega), ⟨n, by simp, rfl⟩,
        fun j hj => ?_⟩
      obtain ⟨-, rfl, hpos⟩ := mem_kidsRange hj
      refine ⟨le_rfl, by simp; omega, by simp⟩
    · obtain ⟨h₁, h₂, ⟨m, hm, hp⟩, h₄⟩ := ih h
      refine ⟨by omega, by rw [entriesSize_node]; omega, ⟨m, by simp [hm], hp⟩, fun j hj => ?_⟩
      have := h₄ j hj
      rw [belowSize_node]
      omega

/-- What an item below siblings is like. -/
structure InBelow (below : ℕ) (p : List Bytes) (t : Tree) (x : Item) : Prop where
  le_off : below ≤ x.off
  off_lt : x.off < below + belowSize t
  path_eq : ∃ n ∈ t.names, ∃ q ≠ [], x.path = p ++ n :: q
  kids : ∀ j ∈ x.kids, x.off < j.start ∧ j.start < j.stop ∧ j.stop ≤ below + belowSize t

theorem inBelow_of_mem {below : ℕ} {p : List Bytes} {t : Tree} {x : Item} (h : x ∈ belowItems below p t) :
    InBelow below p t x := by
  induction t generalizing below p with
  | nil => simp [belowItems] at h
  | leaf n r ih =>
    obtain ⟨h₁, h₂, ⟨m, hm, hp⟩, h₄⟩ := ih h
    exact ⟨h₁, h₂, ⟨m, by simp [hm], hp⟩, h₄⟩
  | node n k r ihk ih =>
    rw [belowItems_node] at h
    rcases List.mem_append.mp h with h | h
    · obtain ⟨hk, h⟩ := mem_treeItems_iff.mp h
      have hsize := treeSize_of_ne_nil hk
      have hrun := runSize_of_ne_nil hk
      rcases h with h | rfl | h
      · obtain ⟨h₁, h₂, ⟨m, hm, hp⟩, h₄⟩ := inRun_of_mem h
        refine ⟨h₁, by rw [belowSize_node]; omega, ⟨n, by simp, [m], by simp, by simp [hp]⟩, fun j hj => ?_⟩
        have := h₄ j hj
        rw [belowSize_node]
        omega
      · refine ⟨by simp [tagItem], by simp [tagItem]; omega, ⟨n, by simp, [[]], by simp, by simp [tagItem]⟩,
          by simp [tagItem]⟩
      · obtain ⟨h₁, h₂, ⟨m, hm, q, hq, hp⟩, h₄⟩ := ihk h
        refine ⟨by omega, by rw [belowSize_node]; omega, ⟨n, by simp, m :: q, by simp, by simp [hp]⟩,
          fun j hj => ?_⟩
        have := h₄ j hj
        rw [belowSize_node]
        omega
    · obtain ⟨h₁, h₂, ⟨m, hm, hp⟩, h₄⟩ := ih h
      refine ⟨by omega, by rw [belowSize_node]; omega, ⟨m, by simp [hm], hp⟩, fun j hj => ?_⟩
      have := h₄ j hj
      rw [belowSize_node]
      omega

/-- What an item of an image is like. -/
structure InTree (off : ℕ) (p : List Bytes) (t : Tree) (x : Item) : Prop where
  le_off : off ≤ x.off
  off_lt : x.off < off + treeSize t
  path_eq : ∃ q ≠ [], x.path = p ++ q
  kids : ∀ j ∈ x.kids, x.off < j.start ∧ j.start < j.stop ∧ j.stop ≤ off + treeSize t

theorem inTree_of_mem {off : ℕ} {p : List Bytes} {t : Tree} {x : Item} (h : x ∈ treeItems off p t) :
    InTree off p t x := by
  obtain ⟨ht, h⟩ := mem_treeItems_iff.mp h
  have hsize := treeSize_of_ne_nil ht
  have hrun := runSize_of_ne_nil ht
  rcases h with h | rfl | h
  · obtain ⟨h₁, h₂, ⟨n, -, hp⟩, h₄⟩ := inRun_of_mem h
    refine ⟨h₁, by omega, ⟨[n], by simp, hp⟩, fun j hj => ?_⟩
    have := h₄ j hj
    omega
  · exact ⟨by simp [tagItem], by simp [tagItem]; omega, ⟨[[]], by simp, rfl⟩, by simp [tagItem]⟩
  · obtain ⟨h₁, h₂, ⟨n, -, q, -, hp⟩, h₄⟩ := inBelow_of_mem h
    refine ⟨by omega, by omega, ⟨n :: q, by simp, hp⟩, fun j hj => ?_⟩
    have := h₄ j hj
    omega

/-! ## Ranges and paths -/

theorem Item.not_below_of_ne {x y : Item} {p : List Bytes} {n m : Bytes} {q q' : List Bytes}
    (hx : x.path = p ++ m :: q') (hy : y.path = p ++ n :: q) (hne : n ≠ m) : ¬ x.Below y := by
  rintro ⟨hpre, -⟩
  rw [hx, hy, List.prefix_append_right_inj, List.cons_prefix_cons] at hpre
  exact hne hpre.1

theorem Item.not_below_of_singleton {x y : Item} {p : List Bytes} {m : Bytes} {q : List Bytes}
    (hx : x.path = p ++ [m]) (hy : y.path = p ++ q) (hq : q ≠ []) : ¬ x.Below y := by
  rintro ⟨hpre, hne⟩
  rw [hx, hy] at hpre hne
  rw [List.prefix_append_right_inj] at hpre
  obtain ⟨n, q, rfl⟩ := List.exists_cons_of_ne_nil hq
  rw [List.cons_prefix_cons, List.prefix_nil] at hpre
  exact hne (by rw [hpre.1, hpre.2])

theorem Item.below_of_append {x y : Item} {p q : List Bytes} (hy : y.path = p) (hx : x.path = p ++ q)
    (hq : q ≠ []) : x.Below y := by
  refine ⟨?_, fun h => hq ?_⟩
  · rw [hx, hy]
    exact List.prefix_append _ _
  · rw [hx, hy] at h
    exact List.self_eq_append_right.mp h

/-- The item stands in a range of the other. -/
def Item.Within (x y : Item) : Prop := ∃ j ∈ y.kids, j.start ≤ x.off ∧ x.off < j.stop

/-- What is said of the ranges of two items. -/
structure Nested (x y : Item) : Prop where
  inside : (y.kids.isSome ∧ x.Below y) ↔ x.Within y
  unique : ∀ j ∈ x.kids, j ∈ y.kids → x.off = y.off

theorem Nested.of_not {x y : Item} (hbelow : ¬ x.Below y)
    (hrange : ∀ j ∈ y.kids, x.off < j.start ∨ j.stop ≤ x.off)
    (hother : ∀ j ∈ y.kids, ∀ i ∈ x.kids, i.start ≠ j.start) : Nested x y := by
  refine ⟨iff_of_false (fun h => hbelow h.2) ?_, fun j hx hy => absurd rfl (hother j hy j hx)⟩
  rintro ⟨j, hj, hle, hlt⟩
  rcases hrange j hj with h | h <;> omega

/-- An item of the entries or below them. -/
def InListing (below : ℕ) (p : List Bytes) (off : ℕ) (t : Tree) (x : Item) : Prop :=
  x ∈ runItems off below p t ∨ x ∈ belowItems below p t

theorem inListing_leaf {off below : ℕ} {p : List Bytes} {n : Bytes} {r : Tree} {x : Item} :
    InListing below p off (.leaf n r) x ↔
      x = ⟨off, p ++ [n], none⟩ ∨ InListing below p (off + n.length + 2) r x := by
  rw [InListing, InListing, runItems, List.mem_cons, or_assoc]
  rfl

theorem inListing_node {off below : ℕ} {p : List Bytes} {n : Bytes} {k r : Tree} {x : Item} :
    InListing below p off (.node n k r) x ↔
      x = ⟨off, p ++ [n], kidsRange below k⟩ ∨ x ∈ treeItems below (p ++ [n]) k ∨
        InListing (below + treeSize k) p (off + n.length + 5) r x := by
  rw [InListing, InListing, runItems, belowItems_node, List.mem_cons, List.mem_append]
  tauto

/-- An item of a listing stands in the run or behind it. -/
theorem InListing.facts {off below : ℕ} {p : List Bytes} {t : Tree} {x : Item}
    (h : InListing below p off t x) :
    ((off ≤ x.off ∧ x.off < off + entriesSize t) ∨
      (below ≤ x.off ∧ x.off < below + belowSize t)) ∧
    (∃ n ∈ t.names, ∃ q, x.path = p ++ n :: q) ∧
    ∀ j ∈ x.kids, below ≤ j.start ∧ j.start < j.stop ∧ j.stop ≤ below + belowSize t := by
  rcases h with h | h
  · obtain ⟨h₁, h₂, ⟨n, hn, hp⟩, h₄⟩ := inRun_of_mem h
    exact ⟨.inl ⟨h₁, h₂⟩, ⟨n, hn, [], hp⟩, h₄⟩
  · obtain ⟨h₁, h₂, ⟨n, hn, q, -, hp⟩, h₄⟩ := inBelow_of_mem h
    refine ⟨.inr ⟨h₁, h₂⟩, ⟨n, hn, q, hp⟩, fun j hj => ?_⟩
    have := h₄ j hj
    omega

theorem InListing.path_ne {off below : ℕ} {p : List Bytes} {t : Tree} {x : Item}
    (h : InListing below p off t x) {n : Bytes} (hn : n ∉ t.names) :
    ∃ m q', x.path = p ++ m :: q' ∧ n ≠ m := by
  obtain ⟨-, ⟨m, hm, q', hp⟩, -⟩ := h.facts
  exact ⟨m, q', hp, fun heq => hn (heq ▸ hm)⟩
theorem Nested.of_none {x y : Item} (h : y.kids = none) : Nested x y := by
  refine ⟨iff_of_false (fun hy => by simp [h] at hy) ?_, fun j _ hj => by simp [h] at hj⟩
  rintro ⟨j, hj, -⟩
  simp [h] at hj

theorem Nested.refl {x : Item} (h : ∀ j ∈ x.kids, x.off < j.start) : Nested x x := by
  refine ⟨iff_of_false (fun hx => hx.2.2 rfl) ?_, fun _ _ _ => rfl⟩
  rintro ⟨j, hj, hle, -⟩
  have := h j hj
  omega

/-- The items of an image, when those of its entries and of what is below them are nested. -/
theorem nested_treeItems {off : ℕ} {p : List Bytes} {t : Tree} (hv : t.Valid NameOk)
    (hlisting : ∀ x y, InListing (off + runSize t) p off t x → InListing (off + runSize t) p off t y →
      Nested x y) {x y : Item} (hx : x ∈ treeItems off p t) (hy : y ∈ treeItems off p t) :
    Nested x y := by
  obtain ⟨ht, hx⟩ := mem_treeItems_iff.mp hx
  obtain ⟨-, hy⟩ := mem_treeItems_iff.mp hy
  have hrun := runSize_of_ne_nil ht
  have hx : x = tagItem off p t ∨ InListing (off + runSize t) p off t x := by
    rw [InListing]; tauto
  have hy : y = tagItem off p t ∨ InListing (off + runSize t) p off t y := by
    rw [InListing]; tauto
  rcases hy with rfl | hy
  · exact .of_none rfl
  rcases hx with rfl | hx
  · obtain ⟨-, ⟨n, hn, q, hp⟩, hkids⟩ := hy.facts
    refine .of_not (Item.not_below_of_ne rfl hp (hv.name_of_mem hn).1) (fun j hj => .inl ?_) (by simp [tagItem])
    have := hkids j hj
    simp only [tagItem]
    omega
  · exact hlisting x y hx hy

/-- A range holds just the items whose path goes through its directory, and two directories have
different ranges. -/
theorem nested_of_inListing {off below : ℕ} {p : List Bytes} {t : Tree} (hv : t.Valid NameOk)
    (hbelow : off + entriesSize t ≤ below) {x y : Item} (hx : InListing below p off t x)
    (hy : InListing below p off t y) : Nested x y := by
  induction t generalizing off below p x y with
  | nil => simp [InListing, runItems, belowItems] at hx
  | leaf n r ih =>
    rw [entriesSize_leaf] at hbelow
    rcases inListing_leaf.mp hy with rfl | hy
    · exact .of_none rfl
    rcases inListing_leaf.mp hx with rfl | hx
    · obtain ⟨m, q, hp, hne⟩ := hy.path_ne hv.2.1
      refine .of_not (Item.not_below_of_ne rfl hp hne.symm) (fun j hj => .inl ?_) (by simp)
      have := hy.facts.2.2 j hj
      simp only
      omega
    · exact ih hv.2.2 (by omega) hx hy
  | node n k r ihk ih =>
    rw [entriesSize_node] at hbelow
    have hkids : ∀ j ∈ kidsRange below k, below = j.start ∧ j.stop = below + treeSize k ∧ 0 < treeSize k :=
      fun j hj => by
        obtain ⟨-, rfl, hpos⟩ := mem_kidsRange hj
        exact ⟨rfl, rfl, hpos⟩
    rcases inListing_node.mp hy with rfl | hy | hy
    · rcases inListing_node.mp hx with rfl | hx | hx
      · refine .refl fun j hj => ?_
        have := hkids j hj
        simp only
        omega
      · -- just these stand in the range of the directory
        obtain ⟨hle, hlt, ⟨q, hq, hp⟩, hx'⟩ := inTree_of_mem hx
        have hk := (mem_treeItems_iff.mp hx).1
        refine ⟨iff_of_true ⟨by simp [kidsRange, hk], Item.below_of_append rfl hp hq⟩
          ⟨⟨below, below + treeSize k⟩, by simp [kidsRange, hk], hle, hlt⟩, fun j hj hj' => ?_⟩
        have := hx' j hj
        have := hkids j hj'
        omega
      · obtain ⟨hoff, -, hx'⟩ := hx.facts
        obtain ⟨m, q, hp, hne⟩ := hx.path_ne hv.2.1
        refine .of_not (Item.not_below_of_ne hp rfl hne) (fun j hj => ?_) fun j hj i hi => ?_
        · have := hkids j hj
          omega
        · have := hx' i hi
          have := hkids j hj
          omega
    · obtain ⟨hle, hlt, ⟨q, hq, hp⟩, hy'⟩ := inTree_of_mem hy
      rw [List.append_assoc] at hp
      rcases inListing_node.mp hx with rfl | hx | hx
      · refine .of_not (Item.not_below_of_singleton rfl hp (by simp)) (fun j hj => ?_) fun j hj i hi => ?_
        · have := hy' j hj
          simp only
          omega
        · have := hy' j hj
          have := hkids i hi
          omega
      · have hk := (mem_treeItems_iff.mp hx).1
        have hrun := runSize_of_ne_nil hk
        exact nested_treeItems hv.2.2.1 (fun x y hx hy => ihk hv.2.2.1 (by omega) hx hy) hx hy
      · obtain ⟨hoff, -, hx'⟩ := hx.facts
        obtain ⟨m, q', hp', hne⟩ := hx.path_ne hv.2.1
        refine .of_not (Item.not_below_of_ne hp' hp hne) (fun j hj => ?_) fun j hj i hi => ?_
        · have := hy' j hj
          omega
        · have := hy' j hj
          have := hx' i hi
          omega
    · obtain ⟨hoff, -, hy'⟩ := hy.facts
      obtain ⟨m, q, hp, hne⟩ := hy.path_ne hv.2.1
      rcases inListing_node.mp hx with rfl | hx | hx
      · refine .of_not (Item.not_below_of_ne rfl hp hne.symm) (fun j hj => ?_) fun j hj i hi => ?_
        · have := hy' j hj
          simp only
          omega
        · have := hy' j hj
          have := hkids i hi
          omega
      · obtain ⟨hle, hlt, ⟨q', hq', hp'⟩, hx'⟩ := inTree_of_mem hx
        rw [List.append_assoc] at hp'
        refine .of_not (Item.not_below_of_ne hp' hp hne.symm) (fun j hj => ?_) fun j hj i hi => ?_
        · have := hy' j hj
          omega
        · have := hy' j hj
          have := hx' i hi
          omega
      · exact ih hv.2.2.2 (by omega) hx hy
/-! ## The ends of a range -/

theorem exists_first (off : ℕ) (p : List Bytes) {t : Tree} (ht : t ≠ .nil) (hv : t.Valid NameOk) :
    ∃ x ∈ treeItems off p t, x.off = off ∧ x.name ≠ [] := by
  cases t with
  | nil => exact absurd rfl ht
  | leaf n r =>
    refine ⟨⟨off, p ++ [n], none⟩, mem_treeItems_iff.mpr ⟨ht, .inl (by simp [runItems])⟩, rfl, ?_⟩
    rw [Item.name_mk]
    exact hv.1.1
  | node n k r =>
    refine ⟨⟨off, p ++ [n], _⟩, mem_treeItems_iff.mpr ⟨ht, .inl List.mem_cons_self⟩, rfl, ?_⟩
    rw [Item.name_mk]
    exact hv.1.1

theorem exists_first_below (below : ℕ) (p : List Bytes) {t : Tree} (ht : belowSize t ≠ 0)
    (hv : t.Valid NameOk) : ∃ x ∈ belowItems below p t, x.off = below := by
  induction t generalizing below with
  | nil => simp at ht
  | leaf n r ih => exact ih below ht hv.2.2
  | node n k r _ ih =>
    rw [belowItems_node]
    by_cases hk : k = .nil
    · subst hk
      obtain ⟨x, hx, hoff⟩ := ih below (by simpa using ht) hv.2.2.2
      exact ⟨x, List.mem_append_right _ (by simpa using hx), hoff⟩
    · obtain ⟨x, hx, hoff, -⟩ := exists_first below (p ++ [n]) hk hv.2.2.1
      exact ⟨x, List.mem_append_left _ hx, hoff⟩

/-- A range starts at an entry, and it ends at an item or where the image ends. -/
def Bounded (items : List Item) (stop : ℕ) (y : Item) : Prop :=
  ∀ j ∈ y.kids, (∃ x ∈ items, x.off = j.start ∧ x.name ≠ []) ∧ (j.stop = stop ∨ ∃ x ∈ items, x.off = j.stop)

theorem bounded_of_inListing {off below : ℕ} {p : List Bytes} {t : Tree} (hv : t.Valid NameOk) {y : Item}
    (hy : InListing below p off t y) : Bounded (belowItems below p t) (below + belowSize t) y := by
  induction t generalizing off below p y with
  | nil => simp [InListing, runItems, belowItems] at hy
  | leaf n r ih =>
    rcases inListing_leaf.mp hy with rfl | hy
    · simp [Bounded]
    · exact ih hv.2.2 hy
  | node n k r ihk ih =>
    -- behind the kids stand the items below the next siblings, if there are any
    have hnext : below + treeSize k = below + belowSize (.node n k r) ∨
        ∃ x ∈ belowItems below p (.node n k r), x.off = below + treeSize k := by
      by_cases hr : belowSize r = 0
      · exact .inl (by rw [belowSize_node]; omega)
      · obtain ⟨x, hx, hoff⟩ := exists_first_below (below + treeSize k) p hr hv.2.2.2
        exact .inr ⟨x, by rw [belowItems_node]; exact List.mem_append_right _ hx, hoff⟩
    rcases inListing_node.mp hy with rfl | hy | hy
    · intro j hj
      obtain ⟨hk, rfl, -⟩ := mem_kidsRange hj
      obtain ⟨x, hx, hoff, hname⟩ := exists_first below (p ++ [n]) hk hv.2.2.1
      exact ⟨⟨x, by rw [belowItems_node]; exact List.mem_append_left _ hx, hoff, hname⟩, hnext⟩
    · obtain ⟨hk, hy⟩ := mem_treeItems_iff.mp hy
      intro j hj
      have hlisting : InListing (below + runSize k) (p ++ [n]) below k y := by
        rcases hy with hy | rfl | hy
        · exact .inl hy
        · simp [tagItem] at hj
        · exact .inr hy
      have hmem : ∀ x ∈ belowItems (below + runSize k) (p ++ [n]) k, x ∈ belowItems below p (.node n k r) :=
        fun x hx => by
          rw [belowItems_node]
          exact List.mem_append_left _ (mem_treeItems_iff.mpr ⟨hk, .inr (.inr hx)⟩)
      obtain ⟨⟨x, hx, hfirst⟩, hlast⟩ := ihk hv.2.2.1 hlisting j hj
      refine ⟨⟨x, hmem x hx, hfirst⟩, ?_⟩
      rcases hlast with hlast | ⟨x, hx, hoff⟩
      · rw [Nat.add_assoc, ← treeSize] at hlast
        rw [hlast]
        exact hnext
      · exact .inr ⟨x, hmem x hx, hoff⟩
    · intro j hj
      obtain ⟨⟨x, hx, hfirst⟩, hlast⟩ := ih hv.2.2.2 hy j hj
      rw [belowItems_node, belowSize_node]
      refine ⟨⟨x, List.mem_append_right _ hx, hfirst⟩, ?_⟩
      rcases hlast with hlast | ⟨x, hx, hoff⟩
      · exact .inl (by omega)
      · exact .inr ⟨x, List.mem_append_right _ hx, hoff⟩

/-! ## What the code reads of the items -/

/-- The kids that `get_kids_offset` and `get_tree_end_offset` find. -/
def Item.Reads (b : FsBuf) (x : Item) : Prop :=
  x.name ≠ [] → b.getKidsOffset x.off = (x.kids.map JumpOff.start).getD 0 ∧
    ∀ j ∈ x.kids, b.getTreeEndOffset j.start = j.stop

variable {b : FsBuf} (hb : b.Sized)
include hb

theorem reads_of_inListing {off below d : ℕ} {p : List Bytes} {t : Tree} (hv : t.Valid NameOk)
    (hbelow : below = off + entriesSize t + 5 + d) (hent : EntriesAt b.head off d t)
    (hruns : BelowAt b.head below d t) (hfit : below + belowSize t ≤ b.tail) {x : Item}
    (hx : InListing below p off t x) : x.Reads b := by
  have hcap := hb.tail_le
  have hmax := hb.tail_le_max
  induction t generalizing off below d p x with
  | nil => simp [InListing, runItems, belowItems] at hx
  | leaf n r ih =>
    rw [entriesSize_leaf] at hbelow
    rcases inListing_leaf.mp hx with rfl | hx
    · exact fun _ => ⟨FsBuf.getKidsOffset_of_file hent.1 hv.1 (by simp only; omega), by simp⟩
    · exact ih hv.2.2 (by omega) hent.2 hruns hfit hx
  | node n k r ihk ih =>
    rw [entriesSize_node] at hbelow
    rw [belowSize_node] at hfit
    obtain ⟨hrun, hkids, hrest⟩ := hruns
    rcases inListing_node.mp hx with rfl | hx | hx
    · refine fun _ => ⟨?_, fun j hj => ?_⟩
      · rw [FsBuf.getKidsOffset_of_dir hent.1 hv.1 (by omega) (by split <;> omega)]
        by_cases hk : k = .nil
        · simp [hk, kidsRange]
        · simp only [kidsRange, hk, if_false, Option.map_some, Option.getD_some]
          rw [if_neg (by omega)]
          omega
      · obtain ⟨hk, rfl, -⟩ := mem_kidsRange hj
        exact FsBuf.getTreeEndOffset_eq hb ⟨hrun, hkids⟩ hk hv.2.2.1 (by simp only; omega)
    · obtain ⟨hk, hx⟩ := mem_treeItems_iff.mp hx
      have hsize := treeSize_of_ne_nil hk
      have hrunSize := runSize_of_ne_nil hk
      have hlisting : x.name ≠ [] → InListing (below + runSize k) (p ++ [n]) below k x := by
        rcases hx with hx | rfl | hx
        · exact fun _ => .inl hx
        · exact fun hname => absurd (Item.name_mk _ _ _ _) hname
        · exact fun _ => .inr hx
      intro hname
      exact ihk hv.2.2.1 (d := 0) (by omega) (hrun hk).1 hkids (by omega) (hlisting hname) hname
    · exact ih hv.2.2.2 (by omega) hent.2 hrest (by omega) hx
/-- `next_name` leads through the items. -/
def Chain (b : FsBuf) (off : ℕ) (items : List Item) (stop : ℕ) : Prop := b.Names off (items.map Item.key) stop

omit hb in
theorem Chain.append {off mid stop : ℕ} {xs ys : List Item} (hx : Chain b off xs mid)
    (hy : Chain b mid ys stop) : Chain b off (xs ++ ys) stop := by
  rw [Chain, List.map_append]
  exact FsBuf.Names.append hx hy

theorem chain_runItems {off below d : ℕ} {p : List Bytes} {t : Tree} (hv : t.Valid NameOk)
    (hent : EntriesAt b.head off d t) (hfit : off + entriesSize t ≤ b.tail) :
    Chain b off (runItems off below p t) (off + entriesSize t) := by
  have hcap := hb.tail_le
  induction t generalizing off below d with
  | nil => exact rfl
  | leaf n r ih =>
    rw [entriesSize_leaf] at hfit ⊢
    have hnext := FsBuf.nextName_of_file hent.1 hv.1 (by omega)
    have hname : Item.name ⟨off, p ++ [n], none⟩ = n := Item.name_mk _ _ _ _
    refine ⟨rfl, ?_, iff_of_false (FsBuf.get_ne_zero_of_holds hent.1 hv.1) ?_, by omega, ?_⟩
    · exact (FsBuf.strAt_of_file hent.1 hv.1 (by omega)).trans hname.symm
    · exact fun h0 => hv.1.1 (hname.symm.trans h0)
    · rw [hnext]
      have := @ih _ below _ hv.2.2 hent.2 (by omega)
      rwa [show off + (n.length + 2 + entriesSize r) = off + n.length + 2 + entriesSize r by omega]
  | node n k r _ ih =>
    rw [entriesSize_node] at hfit ⊢
    have hnext := FsBuf.nextName_of_dir hent.1 hv.1 (by omega)
    have hname : Item.name ⟨off, p ++ [n], kidsRange below k⟩ = n := Item.name_mk _ _ _ _
    refine ⟨rfl, ?_, iff_of_false (FsBuf.get_ne_zero_of_holds hent.1 hv.1) ?_, by omega, ?_⟩
    · exact (FsBuf.strAt_of_dir hent.1 hv.1 (by omega)).trans hname.symm
    · exact fun h0 => hv.1.1 (hname.symm.trans h0)
    · rw [hnext]
      have := @ih _ (below + treeSize k) _ hv.2.2.2 hent.2 (by omega)
      rwa [show off + (n.length + 5 + entriesSize r) = off + n.length + 5 + entriesSize r by omega]

theorem chain_tagItem {off up : ℕ} {p : List Bytes} {t : Tree} (hup : UpAt b.head (off + entriesSize t) up)
    (hfit : off + entriesSize t + 5 ≤ b.tail) :
    Chain b (off + entriesSize t) [tagItem off p t] (off + entriesSize t + 5) := by
  have hcap := hb.tail_le
  have hstr : b.strAt (off + entriesSize t) = [] :=
    FsBuf.strAt_of_holds (n := []) hup (by simp) (by simp only [List.length_nil]; omega)
  have hnext : b.nextName (off + entriesSize t) = off + entriesSize t + 5 := by
    simp only [FsBuf.nextName, FsBuf.strlen, hstr, List.length_nil, Nat.add_zero]
    rw [hup.2.1, if_neg (FsBuf.ofNat_dirTag_ne_zero _)]
  have hname : (tagItem off p t).name = [] := Item.name_mk _ _ _ _
  refine ⟨rfl, hstr.trans hname.symm, iff_of_true hup.1 hname, ?_, hnext⟩
  rw [hnext]
  omega

theorem chain_belowItems {below d : ℕ} {p : List Bytes} {t : Tree} (hv : t.Valid NameOk)
    (hruns : BelowAt b.head below d t) (hfit : below + belowSize t ≤ b.tail) :
    Chain b below (belowItems below p t) (below + belowSize t) := by
  induction t generalizing below d p with
  | nil => exact rfl
  | leaf n r ih => exact ih hv.2.2 hruns hfit
  | node n k r ihk ih =>
    rw [belowSize_node] at hfit ⊢
    obtain ⟨hrun, hkids, hrest⟩ := hruns
    rw [belowItems_node, ← Nat.add_assoc]
    refine Chain.append ?_ (ih hv.2.2.2 hrest (by omega))
    by_cases hk : k = .nil
    · subst hk
      exact rfl
    · have hsize := treeSize_of_ne_nil hk
      have hrunSize := runSize_of_ne_nil hk
      obtain ⟨hent, hup⟩ := hrun hk
      have hbelow := ihk (p := p ++ [n]) hv.2.2.1 hkids (by omega)
      have htag := chain_tagItem hb (p := p ++ [n]) hup (by omega)
      rw [Nat.add_assoc, ← treeSize] at hbelow
      rw [Nat.add_assoc below, ← hrunSize] at htag
      rw [treeItems, if_neg hk]
      exact (chain_runItems hb hv.2.2.1 hent (by omega)).append (htag.append hbelow)

/-- What a search needs to know of the items of a range. -/
structure Searchable (b : FsBuf) (items : List Item) (off stop : ℕ) : Prop where
  chain : Chain b off items stop
  reads : ∀ x ∈ items, x.Reads b
  nested : ∀ x ∈ items, ∀ y ∈ items, Nested x y
  bounded : ∀ y ∈ items, Bounded items stop y
  range : ∀ x ∈ items, ∀ j ∈ x.kids, 0 < j.start ∧ x.off < j.start ∧ j.start < j.stop ∧ j.stop ≤ stop

/-- The image of a listing can be searched. -/
theorem TreeAt.searchable {off up : ℕ} {p : List Bytes} {t : Tree} (h : TreeAt b.head off up t)
    (hv : t.Valid NameOk) (hfit : off + treeSize t ≤ b.tail) :
    Searchable b (treeItems off p t) off (off + treeSize t) := by
  by_cases ht : t = .nil
  · subst ht
    simp only [treeItems, if_true, treeSize_nil, Nat.add_zero]
    exact ⟨rfl, by simp, by simp, by simp, by simp⟩
  have hsize := treeSize_of_ne_nil ht
  have hrunSize := runSize_of_ne_nil ht
  obtain ⟨hent, hup⟩ := h.1 ht
  have hlisting : ∀ x ∈ treeItems off p t, x = tagItem off p t ∨ InListing (off + runSize t) p off t x :=
    fun x hx => by
      have := (mem_treeItems_iff.mp hx).2
      rw [InListing]
      tauto
  refine ⟨?_, fun x hx hname => ?_, fun x hx y hy => ?_, fun y hy j hj => ?_, fun x hx j hj => ?_⟩
  · have hbelow := chain_belowItems hb (p := p) hv h.2 (by omega)
    have htag := chain_tagItem hb (p := p) hup (by omega)
    rw [Nat.add_assoc, ← treeSize] at hbelow
    rw [Nat.add_assoc off, ← hrunSize] at htag
    rw [treeItems, if_neg ht]
    exact (chain_runItems hb hv hent (by omega)).append (htag.append hbelow)
  · rcases hlisting x hx with rfl | hx
    · exact absurd (Item.name_mk _ _ _ _) hname
    · exact reads_of_inListing hb hv (by omega) hent h.2 (by omega) hx hname
  · exact nested_treeItems hv (fun x y hx hy => nested_of_inListing hv (by omega) hx hy) hx hy
  · rcases hlisting y hy with rfl | hy
    · simp [tagItem] at hj
    have hmem : ∀ x ∈ belowItems (off + runSize t) p t, x ∈ treeItems off p t :=
      fun x hx => mem_treeItems_iff.mpr ⟨ht, .inr (.inr hx)⟩
    obtain ⟨⟨x, hx, hfirst⟩, hlast⟩ := bounded_of_inListing hv hy j hj
    refine ⟨⟨x, hmem x hx, hfirst⟩, ?_⟩
    rcases hlast with hlast | ⟨x, hx, hoff⟩
    · exact .inl (by rw [hlast, treeSize]; omega)
    · exact .inr ⟨x, hmem x hx, hoff⟩
  · have := (inTree_of_mem hx).kids j hj
    omega

/-! ## Items and addresses -/

omit hb

theorem runItems_append (off below : ℕ) (p : List Bytes) (x y : Tree) :
    runItems off below p (x ++ y) =
      runItems off below p x ++ runItems (off + entriesSize x) (below + belowSize x) p y := by
  induction x generalizing off below with
  | nil => simp [runItems]
  | leaf n x ih => simp [runItems, ih, Nat.add_assoc]
  | node n k x _ ih => simp [runItems, ih, Nat.add_assoc]

theorem belowItems_append (below : ℕ) (p : List Bytes) (x y : Tree) :
    belowItems below p (x ++ y) = belowItems below p x ++ belowItems (below + belowSize x) p y := by
  induction x generalizing below with
  | nil => simp [belowItems]
  | leaf n x ih => simp [belowItems, ih]
  | node n k x _ ih => simp [belowItems_node, ih, Nat.add_assoc]

/-- The items of an entry's kids are items of the listing. -/
theorem mem_treeItems_frame {base : ℕ} {f : Frame Bytes} {c : List (Frame Bytes)} {k : Tree} {x : Item}
    (hx : x ∈ treeItems (runPos base (f :: c)) (path (f :: c)) k) :
    x ∈ treeItems (runPos base c) (path c) (f.left ++ node f.name k f.right) := by
  have hne : f.left ++ node f.name k f.right ≠ .nil := append_cons_ne_nil f.left f.right f.name (.node k)
  refine mem_treeItems_iff.mpr ⟨hne, .inr (.inr ?_)⟩
  rw [belowItems_append, belowItems_node, runSize_of_ne_nil hne, entriesSize_wrap, ← Nat.add_assoc,
    ← runPos_cons]
  exact List.mem_append_right _ (List.mem_append_left _ hx)

theorem mem_treeItems_plug {base : ℕ} {c d : List (Frame Bytes)} {k : Tree} {x : Item}
    (hx : x ∈ treeItems (runPos base (d ++ c)) (path (d ++ c)) k) :
    x ∈ treeItems (runPos base c) (path c) (plug d k) := by
  induction d generalizing k with
  | nil => exact hx
  | cons f d ih =>
    rw [plug_cons]
    exact ih (mem_treeItems_frame hx)

/-- An entry is an item. -/
theorem exists_item {base : ℕ} {c : List (Frame Bytes)} {l r : Tree} {n : Bytes} {e : Entry Bytes} :
    ∃ x ∈ treeItems (runPos base c) (path c) (l ++ cons n e r), x.path = path c ++ [n] := by
  have hne := append_cons_ne_nil l r n e
  have hmem : ∀ x ∈ runItems (runPos base c) (runPos base c + runSize (l ++ cons n e r)) (path c)
      (l ++ cons n e r), x ∈ treeItems (runPos base c) (path c) (l ++ cons n e r) :=
    fun x hx => mem_treeItems_iff.mpr ⟨hne, .inl hx⟩
  rw [runItems_append] at hmem
  cases e with
  | leaf => exact ⟨_, hmem _ (List.mem_append_right _ List.mem_cons_self), rfl⟩
  | node k => exact ⟨_, hmem _ (List.mem_append_right _ List.mem_cons_self), rfl⟩

/-- An item is an entry in its context, or a parent tag. -/
theorem exists_entry_of_inListing {base : ℕ} {c : List (Frame Bytes)} {l r : Tree} {x : Item}
    (hx : InListing (runPos base c + runSize (l ++ r) + belowSize l) (path c)
      (runPos base c + entriesSize l) r x) (hname : x.name ≠ []) :
    ∃ d l' n e r', plug c (l ++ r) = plug d (l' ++ cons n e r') ∧ x.path = path d ++ [n] ∧
      x.off = runPos base d + entriesSize l' := by
  induction r generalizing c l x with
  | nil => simp [InListing, runItems, belowItems] at hx
  | leaf n r ih =>
    rcases inListing_leaf.mp hx with rfl | hx
    · exact ⟨c, l, n, .leaf, r, rfl, rfl, rfl⟩
    · have happend : l ++ leaf n r = (l ++ leaf n .nil) ++ r := by rw [append_assoc]; rfl
      rw [happend] at hx ⊢
      refine ih (l := l ++ leaf n .nil) ?_ hname
      simpa [Nat.add_assoc] using hx
  | node n k r ihk ih =>
    have happend : l ++ node n k r = (l ++ node n k .nil) ++ r := by rw [append_assoc]; rfl
    rcases inListing_node.mp hx with rfl | hx | hx
    · exact ⟨c, l, n, .node k, r, rfl, rfl, rfl⟩
    · obtain ⟨hk, hx⟩ := mem_treeItems_iff.mp hx
      have hne : l ++ node n k r ≠ .nil := append_cons_ne_nil l r n (.node k)
      have hpos : runPos base c + runSize (l ++ node n k r) + belowSize l =
          runPos base (⟨l, n, r⟩ :: c) := by
        rw [runSize_of_ne_nil hne, ← Nat.add_assoc, runPos_cons, ← entriesSize_wrap ⟨l, n, r⟩ k]
      rw [hpos] at hx
      refine ihk (c := ⟨l, n, r⟩ :: c) (l := .nil) ?_ hname
      rcases hx with hx | rfl | hx
      · exact .inl (by simpa using hx)
      · exact absurd (Item.name_mk _ _ _ _) hname
      · exact .inr (by simpa using hx)
    · rw [happend] at hx ⊢
      refine ih (l := l ++ node n k .nil) ?_ hname
      simpa [Nat.add_assoc] using hx

/-- An item that is an entry stands where its address leads. -/
theorem Represents.off_eq {root : Bytes} {c : List (Frame Bytes)} {k : Tree}
    (h : Represents b root (plug c k)) {x : Item}
    (hx : x ∈ treeItems (runPos b.firstNameOff c) (path c) k) (hname : x.name ≠ []) :
    x.off = offAt b.firstNameOff (plug c k) x.path ∧ ((plug c k).entryAt x.path).isSome := by
  obtain ⟨hk, hx⟩ := mem_treeItems_iff.mp hx
  have hlisting : InListing (runPos b.firstNameOff c + runSize k) (path c) (runPos b.firstNameOff c) k x := by
    rcases hx with hx | rfl | hx
    · exact .inl hx
    · exact absurd (Item.name_mk _ _ _ _) hname
    · exact .inr hx
  obtain ⟨d, l, n, e, r, hplug, hpath, hoff⟩ :=
    exists_entry_of_inListing (c := c) (l := .nil) (by simpa using hlisting) hname
  rw [nil_append] at hplug
  have hv := h.valid
  rw [hplug] at hv ⊢
  have hd := Fits.of_valid hv
  have hl : n ∉ l.names := fun hn => (((valid_append _ _).mp (Valid.of_plug hv)).2.2 n hn) (by simp)
  rw [hpath, hoff, offAt_plug_cons hd _ hl, entryAt_plug_cons hd e hl]
  exact ⟨rfl, rfl⟩

/-- The items of a listing that are entries stand at the addresses below it. -/
theorem Represents.mem_items_iff {root : Bytes} {c : List (Frame Bytes)} {k : Tree}
    (h : Represents b root (plug c k)) (q : List Bytes) :
    (∃ x ∈ treeItems (runPos b.firstNameOff c) (path c) k, x.name ≠ [] ∧ x.path = path c ++ q) ↔
      q ≠ [] ∧ (k.entryAt q).isSome := by
  have hc := Fits.of_valid h.valid
  constructor
  · rintro ⟨x, hx, hname, hq⟩
    obtain ⟨q', hq', hpath⟩ := (inTree_of_mem hx).path_eq
    obtain rfl : q' = q := List.append_cancel_left (hpath.symm.trans hq)
    refine ⟨hq', ?_⟩
    rw [← entryAt_plug hc, ← hpath]
    exact (h.off_eq hx hname).2
  · rintro ⟨hq, hentry⟩
    obtain ⟨q, n, rfl⟩ : ∃ p n, q = p ++ [n] :=
      ⟨q.dropLast, q.getLast hq, (List.dropLast_append_getLast hq).symm⟩
    obtain ⟨e, he⟩ := Option.isSome_iff_exists.mp hentry
    have hn := h.valid
    obtain ⟨d, l, r, rfl, rfl, -, -⟩ := exists_plug_of_entryAt he
    obtain ⟨x, hx, hpath⟩ := @exists_item b.firstNameOff (d ++ c) l r n e
    refine ⟨x, mem_treeItems_plug hx, ?_, by rw [hpath, path_append, List.append_assoc]⟩
    have hname : x.name = n := by rw [Item.name, hpath]; simp
    rw [hname]
    exact ((valid_cons _ _ _).mp ((valid_append _ _).mp
      (Valid.of_plug (Valid.of_plug hn))).2.1).1.1

end DeepinAnything
