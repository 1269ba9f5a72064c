import DeepinAnything.FsBuf.SliceResults

/-!
# Where the slices are cut (`parallelsearch_files`)

A range is cut at any byte, and `next_name` is to find the next entry from there. In a name and on its
terminator it does. On a tag it reads on from a byte of the tag as if a name stood there, and comes to an
entry only where the bytes of the tag and the next name happen to fit.
-/

namespace DeepinAnything

open ByteMem OrderedForest OrderedForest.Forest

variable {b : FsBuf}

/-- Where the name of an item ends, and its terminator stands. -/
def Item.textEnd (x : Item) : ℕ := x.off + x.name.length

/-! ## Strings from any byte -/

namespace FsBuf

theorem get_add_strlen {p : ℕ} (h : p + b.strlen p < b.capacity) : b.head.get (p + b.strlen p) = 0 := by
  have hlen : (b.strAt p).length < b.capacity - p := by
    rw [strlen] at h
    omega
  obtain ⟨-, hzero, -⟩ := (Mem.holds_append _ _ _).mp (Mem.holds_cstr hlen)
  exact hzero

theorem nextName_eq (p : ℕ) :
    b.nextName p = if b.head.get (p + b.strlen p + 1) = 0 then p + b.strlen p + 2 else p + b.strlen p + 5 :=
  rfl

theorem strlen_eq_zero {p : ℕ} (h : b.head.get p = 0) : b.strlen p = 0 := by
  have hle : p + (b.head.cstr (b.capacity - p) p).length ≤ p := Mem.length_cstr_le le_rfl h
  rw [strlen, strAt]
  omega

end FsBuf

/-! ## Items with their tags -/

/-- Items one behind the other; the tag behind an empty name is not that of a file. -/
structure Laid (b : FsBuf) (items : List Item) (first stop : ℕ) : Prop where
  chain : Chain b first items stop
  tags : ∀ x ∈ items, x.name = [] → b.head.get (x.off + 1) ≠ 0
  stop_le : stop ≤ b.capacity

/-- An item starts at the place, or the items end there. -/
def Meets (items : List Item) (stop off : ℕ) : Prop := off = stop ∨ ∃ y ∈ items, y.off = off

/-- The places from which `next_name` comes to an item or the end of the items: the bytes from there on are
those of a name and its terminator, or they run on over a tag into the next name; or, on a tag, the first
zero byte has just the right distance to an item. -/
inductive Resyncs (b : FsBuf) (items : List Item) (p : ℕ) : Prop
  | text {x : Item} (hx : x ∈ items) (hend : p + b.strlen p = x.textEnd)
  | tagEnd {x : Item} (hx : x ∈ items) (hdir : ¬ b.doIsFile x.off) (hend : p + b.strlen p = x.textEnd + 3)
    (hzero : b.head.get (x.textEnd + 4) = 0)
  | oneByteFile {x y : Item} (hx : x ∈ items) (hdir : ¬ b.doIsFile x.off)
    (hend : p + b.strlen p = x.textEnd + 3) (hy : y ∈ items) (hoff : y.off = x.textEnd + 5)
    (hfile : b.doIsFile y.off) (hlen : y.name.length = 1)
  | twoByteFile {y : Item} (hy : y ∈ items) (hend : p + b.strlen p + 1 = y.off) (hfile : b.doIsFile y.off)
    (hlen : y.name.length = 2)

namespace Laid

variable {items : List Item} {first stop : ℕ} {x y : Item} {p : ℕ} (h : Laid b items first stop)
include h

theorem strlen_eq (hx : x ∈ items) : b.strlen x.off = x.name.length := by
  rw [FsBuf.strlen, h.chain.strAt hx]

theorem next_le (hx : x ∈ items) : b.nextName x.off ≤ stop := by
  rcases (h.chain.next hx).2.1 with heq | ⟨z, hz, heq⟩
  · exact heq.le
  · have := (h.chain.range hz).2
    omega

/-- The size of an item. -/
theorem next_eq (hx : x ∈ items) :
    b.nextName x.off = if b.doIsFile x.off then x.textEnd + 2 else x.textEnd + 5 := by
  rw [FsBuf.nextName, FsBuf.doIsFile, h.strlen_eq hx, Item.textEnd]
  simp only [decide_eq_true_eq]

theorem textEnd_lt (hx : x ∈ items) : x.off ≤ x.textEnd ∧ x.textEnd + 2 ≤ b.nextName x.off := by
  rw [h.next_eq hx, Item.textEnd]
  split <;> omega

/-- A file has a name. -/
theorem length_pos_of_file (hx : x ∈ items) (hfile : b.doIsFile x.off) : 0 < x.name.length := by
  rw [List.length_pos_iff]
  intro hname
  have hlen := h.strlen_eq hx
  rw [hname, List.length_nil] at hlen
  rw [FsBuf.doIsFile, hlen, decide_eq_true_eq] at hfile
  exact h.tags x hx hname hfile

theorem add_three_le (hx : x ∈ items) : x.off + 3 ≤ b.nextName x.off := by
  rw [h.next_eq hx, Item.textEnd]
  split
  · have := h.length_pos_of_file hx ‹_›
    omega
  · omega

/-- Every place is in an item. -/
theorem exists_item (hp : first ≤ p) (hlt : p < stop) : ∃ x ∈ items, x.off ≤ p ∧ p < b.nextName x.off := by
  obtain ⟨hchain, -, -⟩ := h
  induction items generalizing first with
  | nil =>
    obtain rfl : first = stop := hchain
    omega
  | cons y ys ih =>
    obtain ⟨hoff, -, -, -, hys⟩ := hchain
    have hoff : y.off = first := hoff
    by_cases hin : p < b.nextName first
    · exact ⟨y, List.mem_cons_self, by omega, by rwa [hoff]⟩
    · obtain ⟨x, hx, hrange⟩ := ih (by omega) hys
      exact ⟨x, List.mem_cons_of_mem _ hx, hrange⟩

/-- Only one item is at a place. -/
theorem off_eq (hx : x ∈ items) (hy : y ∈ items) (hxp : x.off ≤ p) (hpx : p < b.nextName x.off)
    (hyp : y.off ≤ p) (hpy : p < b.nextName y.off) : x.off = y.off ∧ x.textEnd = y.textEnd := by
  have hoff : x.off = y.off := by
    rcases Nat.lt_trichotomy x.off y.off with hlt | heq | hlt
    · have := (h.chain.next hx).2.2 y hy hlt
      omega
    · exact heq
    · have := (h.chain.next hy).2.2 x hx hlt
      omega
  have hname : x.name.length = y.name.length := by rw [← h.strlen_eq hx, ← h.strlen_eq hy, hoff]
  exact ⟨hoff, by rw [Item.textEnd, Item.textEnd, hoff, hname]⟩

theorem not_meets (hx : x ∈ items) (hxp : x.off < p) (hpx : p < b.nextName x.off) :
    ¬ Meets items stop p := by
  rintro (rfl | ⟨y, hy, rfl⟩)
  · have := h.next_le hx
    omega
  · have := (h.chain.next hx).2.2 y hy hxp
    omega

/-- A few bytes behind the start of an item another one starts only if a short item stands between. -/
theorem meets_add_iff {k : ℕ} (hk : 0 < k) (hk4 : k ≤ 4) (hp : Meets items stop p) :
    Meets items stop (p + k) ↔ ∃ y ∈ items, y.off = p ∧ b.nextName p = p + k := by
  constructor
  · intro hpk
    have hlt : p < stop := by
      rcases hpk with heq | ⟨z, hz, hoff⟩
      · omega
      · have := (h.chain.range hz).2
        omega
    obtain ⟨y, hy, rfl⟩ := hp.resolve_left (by omega)
    refine ⟨y, hy, rfl, ?_⟩
    have hsize := h.add_three_le hy
    rcases Nat.lt_trichotomy (b.nextName y.off) (y.off + k) with hshort | heq | hlong
    · -- the item behind the next one is not that near
      rcases (h.chain.next hy).2.1 with hstop | ⟨z, hz, hoff⟩
      · rcases hpk with heq | ⟨w, hw, hwoff⟩
        · omega
        · have := (h.chain.range hw).2
          omega
      · have hsize' := h.add_three_le hz
        exact absurd hpk (h.not_meets hz (by omega) (by omega))
    · exact heq
    · exact absurd hpk (h.not_meets hy (by omega) hlong)
  · rintro ⟨y, hy, rfl, hnext⟩
    rw [← hnext]
    exact (h.chain.next hy).2.1

/-- From a name and its terminator the next item is found. -/
theorem nextName_text {x : Item} (hx : x ∈ items) (hend : p + b.strlen p = x.textEnd) :
    b.nextName p = b.nextName x.off := by
  rw [FsBuf.nextName, FsBuf.nextName, hend, h.strlen_eq hx, ← Item.textEnd]

/-- The string from `p` on ends on a zero byte: on a terminator, on the tag of a file, or in the last three
bytes of the tag of a directory or of a parent entry. -/
theorem end_cases (hx : x ∈ items) (hxp : x.off ≤ p + b.strlen p) (hpx : p + b.strlen p < b.nextName x.off) :
    p + b.strlen p = x.textEnd ∨ p + b.strlen p + 1 = b.nextName x.off ∨
      ¬ b.doIsFile x.off ∧ (p + b.strlen p = x.textEnd + 2 ∨ p + b.strlen p = x.textEnd + 3) := by
  have hzero : b.head.get (p + b.strlen p) = 0 :=
    FsBuf.get_add_strlen (by have := h.next_le hx; have := h.stop_le; omega)
  by_cases htext : p + b.strlen p ≤ x.textEnd
  · have hend : (p + b.strlen p) + b.strlen (p + b.strlen p) = x.textEnd := by
      rw [Item.textEnd, ← h.strlen_eq hx] at htext ⊢
      exact FsBuf.add_strlen_eq hxp htext
    exact .inl (by rw [b.strlen_end] at hend; exact hend)
  · have hsize := h.next_eq hx
    split at hsize
    · exact .inr (.inl (by omega))
    · rename_i hdir
      have htag : b.head.get (x.textEnd + 1) ≠ 0 := by
        simpa [FsBuf.doIsFile, h.strlen_eq hx, Item.textEnd, fsTagFile] using hdir
      have hne : p + b.strlen p ≠ x.textEnd + 1 := by
        intro heq
        exact htag (heq ▸ hzero)
      by_cases hlast : p + b.strlen p + 1 = b.nextName x.off
      · exact .inr (.inl hlast)
      · exact .inr (.inr ⟨hdir, by omega⟩)

/-- What `Resyncs` says where the string from `p` on ends in a known item. -/
theorem resyncs_cases (hx : x ∈ items) (hxp : x.off ≤ p + b.strlen p) (hpx : p + b.strlen p < b.nextName x.off)
    (hres : Resyncs b items p) :
    p + b.strlen p = x.textEnd ∨
      p + b.strlen p = x.textEnd + 3 ∧ ¬ b.doIsFile x.off ∧ (b.head.get (x.textEnd + 4) = 0 ∨
        ∃ y ∈ items, y.off = x.textEnd + 5 ∧ b.doIsFile y.off ∧ y.name.length = 1) ∨
      p + b.strlen p + 1 = b.nextName x.off ∧
        ∃ y ∈ items, y.off = b.nextName x.off ∧ b.doIsFile y.off ∧ y.name.length = 2 := by
  cases hres with
  | text hy hend =>
    have hin := h.textEnd_lt hy
    have heq := h.off_eq hx hy hxp hpx (by omega) (by omega)
    exact .inl (by omega)
  | @tagEnd y hy hdir hend hzero =>
    have hsize := h.next_eq hy
    rw [if_neg hdir] at hsize
    have hle := (h.textEnd_lt hy).1
    have heq := h.off_eq hx hy hxp hpx (by omega) (by omega)
    rw [← heq.1] at hdir
    rw [← heq.2] at hend hzero
    exact .inr (.inl ⟨hend, hdir, .inl hzero⟩)
  | @oneByteFile w y hw hdir hend hy hoff hfile hlen =>
    have hsize := h.next_eq hw
    rw [if_neg hdir] at hsize
    have hle := (h.textEnd_lt hw).1
    have heq := h.off_eq hx hw hxp hpx (by omega) (by omega)
    rw [← heq.1] at hdir
    rw [← heq.2] at hend hoff
    exact .inr (.inl ⟨hend, hdir, .inr ⟨y, hy, hoff, hfile, hlen⟩⟩)
  | @twoByteFile y hy hend hfile hlen =>
    have hnext := (h.chain.next hx).2.2 y hy (by omega)
    exact .inr (.inr ⟨by omega, y, hy, by omega, hfile, hlen⟩)

/-- Where the string from `p` on ends on the last byte of an item, `next_name` reads the first byte of the
next one as a tag. -/
theorem nextName_iff_of_last (hx : x ∈ items) (hxp : x.textEnd < p + b.strlen p)
    (hlast : p + b.strlen p + 1 = b.nextName x.off) :
    Meets items stop (b.nextName p) ↔ Resyncs b items p := by
  have hoff : x.off ≤ x.textEnd := (h.textEnd_lt hx).1
  have hnext : b.nextName p = if b.head.get (b.nextName x.off) = 0 then b.nextName x.off + 1
      else b.nextName x.off + 4 := by
    rw [FsBuf.nextName_eq, ← hlast]
  have hpos : Meets items stop (b.nextName x.off) := (h.chain.next hx).2.1
  constructor
  · intro hland
    rw [hnext] at hland
    split at hland
    · obtain ⟨y, hy, hyoff, hynext⟩ := (h.meets_add_iff (by omega) (by omega) hpos).mp hland
      have := hyoff ▸ h.add_three_le hy
      omega
    · obtain ⟨y, hy, hyoff, hynext⟩ := (h.meets_add_iff (by omega) (by omega) hpos).mp hland
      rw [← hyoff, h.next_eq hy, Item.textEnd] at hynext
      split at hynext
      · exact .twoByteFile hy (by omega) ‹_› (by omega)
      · omega
  · intro hres
    rcases h.resyncs_cases hx (by omega) (by omega) hres with
      hend | ⟨hend, hdir, -⟩ | ⟨-, y, hy, hyoff, hfile, hlen⟩
    · omega
    · have hsize := h.next_eq hx
      rw [if_neg hdir] at hsize
      omega
    · have hfirst : b.head.get (b.nextName x.off) ≠ 0 := by
        intro hzero
        have hstr := FsBuf.strlen_eq_zero hzero
        rw [← hyoff, h.strlen_eq hy] at hstr
        omega
      have hynext := h.next_eq hy
      rw [if_pos hfile, Item.textEnd, hlen] at hynext
      rw [hnext, if_neg hfirst, ← hyoff, show y.off + 4 = b.nextName y.off by omega]
      exact (h.chain.next hy).2.1

/-- From the second byte of a tag `next_name` stays on the tag, or comes two bytes behind it. -/
theorem nextName_iff_of_second (hx : x ∈ items) (hdir : ¬ b.doIsFile x.off)
    (hend : p + b.strlen p = x.textEnd + 2) :
    Meets items stop (b.nextName p) ↔ Resyncs b items p := by
  have hoff := (h.textEnd_lt hx).1
  have hsize := h.next_eq hx
  rw [if_neg hdir] at hsize
  refine iff_of_false ?_ ?_
  · rw [FsBuf.nextName_eq, hend]
    split
    · exact h.not_meets hx (by omega) (by omega)
    · rw [show x.textEnd + 2 + 5 = b.nextName x.off + 2 by omega,
        h.meets_add_iff (by omega) (by omega) (h.chain.next hx).2.1]
      rintro ⟨y, hy, hyoff, hynext⟩
      have := hyoff ▸ h.add_three_le hy
      omega
  · intro hres
    rcases h.resyncs_cases hx (by omega) (by omega) hres with hend' | ⟨hend', -⟩ | ⟨hend', -⟩
    all_goals omega

/-- From the third byte of a tag `next_name` comes to the next item, or three bytes into it. -/
theorem nextName_iff_of_third (hx : x ∈ items) (hdir : ¬ b.doIsFile x.off)
    (hend : p + b.strlen p = x.textEnd + 3) :
    Meets items stop (b.nextName p) ↔ Resyncs b items p := by
  have hoff : x.off ≤ x.textEnd := (h.textEnd_lt hx).1
  have hsize := h.next_eq hx
  rw [if_neg hdir] at hsize
  have hpos : Meets items stop (b.nextName x.off) := (h.chain.next hx).2.1
  by_cases hzero : b.head.get (x.textEnd + 4) = 0
  · have hnext : b.nextName p = b.nextName x.off := by
      rw [FsBuf.nextName_eq, hend, if_pos hzero]
      omega
    rw [hnext]
    exact iff_of_true hpos (.tagEnd hx hdir hend hzero)
  · have hnext : b.nextName p = b.nextName x.off + 3 := by
      rw [FsBuf.nextName_eq, hend, if_neg hzero]
      omega
    rw [hnext, h.meets_add_iff (by omega) (by omega) hpos]
    constructor
    · rintro ⟨y, hy, hyoff, hynext⟩
      rw [← hyoff, h.next_eq hy, Item.textEnd] at hynext
      split at hynext
      · exact .oneByteFile hx hdir hend hy (by omega) ‹_› (by omega)
      · omega
    · intro hres
      rcases h.resyncs_cases hx (by omega) (by omega) hres with
        hend' | ⟨-, -, hzero' | ⟨y, hy, hyoff, hfile, hlen⟩⟩ | ⟨hend', -⟩
      · omega
      · exact absurd hzero' hzero
      · have hynext := h.next_eq hy
        rw [if_pos hfile, Item.textEnd, hlen] at hynext
        exact ⟨y, hy, by omega, by rw [hsize, ← hyoff]; omega⟩
      · omega

/-- Past the end of the items there is nothing to come to. -/
theorem lt_stop_of_resyncs (hres : Resyncs b items p) : p + b.strlen p < stop := by
  cases hres with
  | text hx hend =>
    have := h.textEnd_lt hx
    have := h.next_le hx
    omega
  | tagEnd hx hdir hend =>
    have hsize := h.next_eq hx
    rw [if_neg hdir] at hsize
    have := h.next_le hx
    omega
  | oneByteFile hx hdir hend =>
    have hsize := h.next_eq hx
    rw [if_neg hdir] at hsize
    have := h.next_le hx
    omega
  | twoByteFile hy hend =>
    have := (h.chain.range hy).2
    omega

/-- `next_name` comes to an item or the end from just the places of `Resyncs`. -/
theorem nextName_iff (hp : first ≤ p) :
    Meets items stop (b.nextName p) ↔ Resyncs b items p := by
  by_cases hlt : p + b.strlen p < stop
  · obtain ⟨x, hx, hxp, hpx⟩ := h.exists_item (hp.trans (Nat.le_add_right _ _)) hlt
    have hoff := (h.textEnd_lt hx).1
    rcases h.end_cases hx hxp hpx with hend | hlast | ⟨hdir, hend | hend⟩
    · rw [h.nextName_text hx hend]
      exact iff_of_true (h.chain.next hx).2.1 (.text hx hend)
    · exact h.nextName_iff_of_last hx (by have := h.textEnd_lt hx; omega) hlast
    · exact h.nextName_iff_of_second hx hdir hend
    · exact h.nextName_iff_of_third hx hdir hend
  · have hnext : p + b.strlen p + 2 ≤ b.nextName p := by
      rw [FsBuf.nextName_eq]
      split <;> omega
    refine iff_of_false ?_ fun hres ↦ hlt (h.lt_stop_of_resyncs hres)
    rintro (hstop | ⟨y, hy, hoff⟩)
    · omega
    · have := (h.chain.range hy).2
      omega

end Laid

/-! ## The items of an image before a place -/

theorem tag_tagItem {off up : ℕ} {p : List Bytes} {t : Tree} (hup : UpAt b.head (off + entriesSize t) up) :
    b.head.get ((tagItem off p t).off + 1) ≠ 0 := by
  have htag : b.head.get (off + entriesSize t + 1) = UInt8.ofNat (4 * up + fsTagDir) := hup.2.1
  rw [tagItem, htag]
  exact FsBuf.ofNat_dirTag_ne_zero up

theorem name_ne_of_mem_runItems {off below : ℕ} {p : List Bytes} {t : Tree} (hv : t.Valid NameOk) {x : Item}
    (hx : x ∈ runItems off below p t) : x.name ≠ [] := by
  obtain ⟨n, hn, hpath⟩ := (inRun_of_mem hx).path_eq
  rw [Item.name, hpath]
  simpa using (hv.name_of_mem hn).1

/-- Items without a name are parent tags. -/
theorem tag_belowItems {below d : ℕ} {p : List Bytes} {t : Tree} (hv : t.Valid NameOk)
    (hruns : BelowAt b.head below d t) :
    ∀ x ∈ belowItems below p t, x.name = [] → b.head.get (x.off + 1) ≠ 0 := by
  induction t generalizing below d p with
  | nil => exact List.forall_mem_nil _
  | leaf n r ih => exact ih hv.2.2 hruns
  | node n k r ihk ih =>
    obtain ⟨hrun, hkids, hrest⟩ := hruns
    intro x hx hname
    rw [belowItems_node] at hx
    rcases List.mem_append.mp hx with hx | hx
    · obtain ⟨hk, hx⟩ := mem_treeItems_iff.mp hx
      rcases hx with hx | rfl | hx
      · exact absurd hname (name_ne_of_mem_runItems hv.2.2.1 hx)
      · exact tag_tagItem (hrun hk).2
      · exact ihk hv.2.2.1 hkids x hx hname
    · exact ih hv.2.2.2 hrest x hx hname

/-- The items of an image that stand before a place. -/
def itemsBefore (b : FsBuf) (t : Tree) (stop : ℕ) : List Item :=
  (treeItems b.firstNameOff [] t).filter fun x => x.off < stop

variable {root : Bytes} {t : Tree}

namespace Represents

variable (h : Represents b root t)
include h

theorem tag_treeItems : ∀ x ∈ treeItems b.firstNameOff [] t, x.name = [] → b.head.get (x.off + 1) ≠ 0 := by
  intro x hx hname
  obtain ⟨ht, hx⟩ := mem_treeItems_iff.mp hx
  rcases hx with hx | rfl | hx
  · exact absurd hname (name_ne_of_mem_runItems h.valid hx)
  · exact tag_tagItem (h.image.1 ht).2
  · exact tag_belowItems h.valid h.image.2 x hx hname

/-- The items before a boundary fill the image up to there. -/
theorem laid {stop : ℕ} (hstop : Boundary b t stop) : Laid b (itemsBefore b t stop) b.firstNameOff stop := by
  obtain ⟨pre, rest, hitems, hpre, hrest⟩ := h.searchable.chain.split hstop
  have hbefore : itemsBefore b t stop = pre := by
    rw [itemsBefore, hitems, List.filter_append,
      List.filter_eq_self.mpr fun x hx => decide_eq_true (hpre.range hx).2,
      List.filter_eq_nil_iff.mpr fun x hx hlt => by
        have := (hrest.range hx).1
        rw [decide_eq_true_eq] at hlt
        omega,
      List.append_nil]
  rw [hbefore]
  refine ⟨hpre, fun x hx => h.tag_treeItems x (hitems ▸ List.mem_append_left _ hx), ?_⟩
  exact hrest.le.trans h.sized.tail_le

/-- A boundary in the image up to `stop`. -/
theorem boundary_iff {stop off : ℕ} (hstop : Boundary b t stop) :
    Boundary b t off ∧ off ≤ stop ↔ Meets (itemsBefore b t stop) stop off := by
  have htail : stop ≤ b.tail := by
    rcases hstop with rfl | ⟨x, hx, rfl⟩
    · exact le_rfl
    · exact (h.searchable.chain.range hx).2.le
  constructor
  · rintro ⟨rfl | ⟨x, hx, rfl⟩, hle⟩
    · exact .inl (by omega)
    · rcases Nat.eq_or_lt_of_le hle with heq | hlt
      · exact .inl heq
      · exact .inr ⟨x, List.mem_filter.mpr ⟨hx, decide_eq_true hlt⟩, rfl⟩
  · rintro (rfl | ⟨x, hx, rfl⟩)
    · exact ⟨hstop, le_rfl⟩
    · obtain ⟨hx, hlt⟩ := List.mem_filter.mp hx
      exact ⟨.inr ⟨x, hx, rfl⟩, (of_decide_eq_true hlt).le⟩

end Represents

/-! ## The cuts -/

namespace FsBuf

/-- Where the loop of `slicesLoop` cuts off slices that are made and are not the last one. -/
def sliceCutsLoop (b : FsBuf) (numItemsPerThread minOff : ℕ) : ℕ → ℕ → ℕ → List ℕ
  | 0, _, _ => []
  | left + 1, startPos, endPos =>
    let stop := if left = 0 then minOff else endPos
    if stop < startPos then []
    else
      let nextStart := b.nextName endPos
      let cut := u32 (endPos + numItemsPerThread)
      let nextEnd := if cut > minOff then minOff else b.nextName cut
      if nextStart ≥ nextEnd then []
      else
        (if left ≤ 1 ∨ cut > minOff then [] else [cut]) ++
          sliceCutsLoop b numItemsPerThread minOff left nextStart nextEnd

/-- The bytes at which `parallelsearch_files` cuts a range. -/
def sliceCuts (b : FsBuf) (poolThreads startOff minOff count : ℕ) : List ℕ :=
  let range := subU32 minOff startOff
  let minRange := u32 ((count + 1) * 1024)
  let numThreads := if range ≤ minRange then 1 else poolThreads
  let numItemsPerThread := max (range / numThreads) 1
  let cut := u32 (startOff + numItemsPerThread)
  let endPos := if cut ≥ minOff then minOff else b.nextName cut
  (if numThreads ≤ 1 ∨ cut ≥ minOff then [] else [cut]) ++
    b.sliceCutsLoop numItemsPerThread minOff numThreads startOff endPos

/-- No slice ends before it starts. -/
theorem slicesLoop_le (numItemsPerThread minOff left startPos endPos : ℕ) :
    ∀ part ∈ (b.slicesLoop numItemsPerThread minOff left startPos endPos).1, part.1 ≤ part.2 := by
  induction left generalizing startPos endPos with
  | zero => exact List.forall_mem_nil _
  | succ left ih =>
    rw [slicesLoop]
    simp only
    by_cases herr : (if left = 0 then minOff else endPos) < startPos
    · rw [if_pos herr]
      exact List.forall_mem_nil _
    rw [if_neg herr]
    generalize (if u32 (endPos + numItemsPerThread) > minOff then minOff
      else b.nextName (u32 (endPos + numItemsPerThread))) = nextEnd
    by_cases hdone : b.nextName endPos ≥ nextEnd
    · rw [if_pos hdone, List.forall_mem_singleton]
      exact Nat.le_of_not_lt herr
    · rw [if_neg hdone, List.forall_mem_cons]
      exact ⟨Nat.le_of_not_lt herr, ih _ _⟩

theorem slices_le (b : FsBuf) (poolThreads startOff minOff count : ℕ) :
    ∀ part ∈ (b.slices poolThreads startOff minOff count).1, part.1 ≤ part.2 :=
  slicesLoop_le _ _ _ _ _

/-- The slice that the loop stands at is made. -/
theorem mem_slicesLoop (numItemsPerThread minOff left : ℕ) {startPos endPos : ℕ} (hle : startPos ≤ endPos) :
    (startPos, endPos) ∈ (b.slicesLoop numItemsPerThread minOff (left + 2) startPos endPos).1 := by
  rw [slicesLoop, if_neg (Nat.succ_ne_zero left), if_neg (Nat.not_lt.mpr hle)]
  simp only
  generalize (if u32 (endPos + numItemsPerThread) > minOff then minOff
    else b.nextName (u32 (endPos + numItemsPerThread))) = nextEnd
  by_cases hdone : b.nextName endPos ≥ nextEnd
  · rw [if_pos hdone]
    exact List.mem_cons_self
  · rw [if_neg hdone]
    exact List.mem_cons_self

end FsBuf

namespace Laid

variable {items : List Item} {first stop : ℕ} (h : Laid b items first stop)
include h

/-- Slices end at items if and only if every cut leads to an item. -/
theorem slicesLoop_iff {numItemsPerThread : ℕ} (hpos : 0 < numItemsPerThread)
    (hfit : stop + numItemsPerThread < 2 ^ 32) {left startPos endPos : ℕ} (hfirst : first ≤ startPos)
    (hstart : Meets items stop startPos)
    (hend : 2 ≤ left → Meets items stop endPos) :
    (∀ part ∈ (b.slicesLoop numItemsPerThread stop left startPos endPos).1,
      Meets items stop part.1 ∧ Meets items stop part.2) ↔
    ∀ cut ∈ b.sliceCutsLoop numItemsPerThread stop left startPos endPos, cut < stop ∧ Resyncs b items cut := by
  induction left generalizing startPos endPos with
  | zero => exact iff_of_true (List.forall_mem_nil _) (List.forall_mem_nil _)
  | succ left ih =>
    rw [FsBuf.slicesLoop, FsBuf.sliceCutsLoop]
    simp only
    have hstop : Meets items stop (if left = 0 then stop else endPos) := by
      split
      · exact .inl rfl
      · exact hend (by omega)
    by_cases herr : (if left = 0 then stop else endPos) < startPos
    · rw [if_pos herr, if_pos herr]
      exact iff_of_true (List.forall_mem_nil _) (List.forall_mem_nil _)
    rw [if_neg herr, if_neg herr]
    generalize hnextEnd : (if u32 (endPos + numItemsPerThread) > stop then stop
      else b.nextName (u32 (endPos + numItemsPerThread))) = nextEnd
    by_cases hdone : b.nextName endPos ≥ nextEnd
    · rw [if_pos hdone, if_pos hdone]
      refine iff_of_true (fun part hpart => ?_) (List.forall_mem_nil _)
      rw [List.mem_singleton.mp hpart]
      exact ⟨hstart, hstop⟩
    rw [if_neg hdone, if_neg hdone]
    -- the slice that is made here is right, so the others are to be looked at
    rw [List.forall_mem_cons, and_iff_right ⟨hstart, hstop⟩, List.forall_mem_append]
    by_cases hlast : left = 0
    · subst hlast
      exact iff_of_true (List.forall_mem_nil _) ⟨List.forall_mem_nil _, List.forall_mem_nil _⟩
    rw [if_neg hlast] at hstop herr
    have hle : endPos ≤ stop := by
      rcases hstop with heq | ⟨y, hy, hoff⟩
      · exact heq.le
      · have := (h.chain.range hy).2
        omega
    have hcut : u32 (endPos + numItemsPerThread) = endPos + numItemsPerThread := u32_of_lt (by omega)
    rw [hcut] at hnextEnd ⊢
    have hlt : endPos < stop := by
      by_contra hge
      rw [if_pos (by omega)] at hnextEnd
      have := b.lt_nextName endPos
      omega
    obtain ⟨y, hy, rfl⟩ := hstop.resolve_left (by omega)
    have hnextStart : Meets items stop (b.nextName y.off) := (h.chain.next hy).2.1
    have hfirst' : first ≤ b.nextName y.off := (h.chain.range hy).1.trans (b.lt_nextName _).le
    by_cases hone : left = 1
    · rw [if_pos (.inl hone.le), ih hfirst' hnextStart fun hmore => absurd hmore (by omega)]
      exact ⟨fun hcuts => ⟨List.forall_mem_nil _, hcuts⟩, And.right⟩
    by_cases hbehind : y.off + numItemsPerThread > stop
    · rw [if_pos hbehind] at hnextEnd
      rw [if_pos (.inr hbehind), ih hfirst' hnextStart fun _ => .inl hnextEnd.symm]
      exact ⟨fun hcuts => ⟨List.forall_mem_nil _, hcuts⟩, And.right⟩
    rw [if_neg hbehind] at hnextEnd
    rw [if_neg (by omega), List.forall_mem_singleton]
    have hland : Meets items stop nextEnd ↔
        y.off + numItemsPerThread < stop ∧ Resyncs b items (y.off + numItemsPerThread) := by
      rw [← h.nextName_iff ((h.chain.range hy).1.trans (Nat.le_add_right _ _)), hnextEnd]
      refine ⟨fun hin => ⟨?_, hin⟩, And.right⟩
      have := b.lt_nextName (y.off + numItemsPerThread)
      rcases hin with heq | ⟨z, hz, hoff⟩
      · omega
      · have := (h.chain.range hz).2
        omega
    rw [← hland]
    constructor
    · intro hparts
      obtain ⟨more, rfl⟩ := Nat.exists_eq_add_of_le' (show 2 ≤ left by omega)
      have hin := (hparts _ (FsBuf.mem_slicesLoop numItemsPerThread stop more (Nat.le_of_not_ge hdone))).2
      exact ⟨hin, (ih hfirst' hnextStart fun _ => hin).mp hparts⟩
    · rintro ⟨hin, hcuts⟩
      exact (ih hfirst' hnextStart fun _ => hin).mpr hcuts

end Laid

namespace Represents

variable (h : Represents b root t)
include h

/-- The slices of a range end at boundaries in the range if and only if every cut leads to one. -/
theorem slices_iff {start stop : ℕ} (hstart : Boundary b t start) (hstop : Boundary b t stop)
    (hle : start ≤ stop) (poolThreads count : ℕ) :
    (∀ part ∈ (b.slices poolThreads start stop count).1,
      (Boundary b t part.1 ∧ part.1 ≤ stop) ∧ Boundary b t part.2 ∧ part.2 ≤ stop) ↔
    ∀ cut ∈ b.sliceCuts poolThreads start stop count, cut < stop ∧ Resyncs b (itemsBefore b t stop) cut := by
  have hlaid := h.laid hstop
  have hcap := hlaid.stop_le.trans h.sized.capacity_le
  have hmax : maxFsbufSize = 2 ^ 30 := rfl
  have hfirst : b.firstNameOff ≤ start := by
    rcases hstart with rfl | ⟨x, hx, rfl⟩
    · exact h.searchable.chain.le
    · exact (h.searchable.chain.range hx).1
  have hstart' := (h.boundary_iff hstop).mp ⟨hstart, hle⟩
  simp only [h.boundary_iff hstop]
  rw [FsBuf.slices, FsBuf.sliceCuts]
  simp only [subU32_of_le hle (by omega)]
  generalize (if stop - start ≤ u32 ((count + 1) * 1024) then 1 else poolThreads) = numThreads
  generalize hitems : max ((stop - start) / numThreads) 1 = numItems
  have hpos : 0 < numItems := by omega
  have hsize : numItems ≤ stop + 1 := by
    have := Nat.div_le_self (stop - start) numThreads
    omega
  have hcut : u32 (start + numItems) = start + numItems := u32_of_lt (by omega)
  rw [hcut, List.forall_mem_append]
  generalize hend : (if start + numItems ≥ stop then stop else b.nextName (start + numItems)) = endPos
  by_cases hnone : numThreads ≤ 1 ∨ start + numItems ≥ stop
  · have hmeets : 2 ≤ numThreads → Meets (itemsBefore b t stop) stop endPos := fun hmany => by
      rw [if_pos (hnone.resolve_left (by omega))] at hend
      exact .inl hend.symm
    rw [if_pos hnone, hlaid.slicesLoop_iff hpos (by omega) hfirst hstart' hmeets]
    exact ⟨fun hcuts => ⟨List.forall_mem_nil _, hcuts⟩, And.right⟩
  obtain ⟨hmany, hbefore⟩ := not_or.mp hnone
  rw [if_neg hbefore] at hend
  rw [if_neg hnone, List.forall_mem_singleton, and_iff_right (Nat.lt_of_not_ge hbefore),
    ← hlaid.nextName_iff (hfirst.trans (Nat.le_add_right _ _)), hend]
  obtain ⟨more, rfl⟩ := Nat.exists_eq_add_of_le' (show 2 ≤ numThreads by omega)
  have hlt := b.lt_nextName (start + numItems)
  constructor
  · intro hparts
    have hin := (hparts _ (FsBuf.mem_slicesLoop numItems stop more (show start ≤ endPos by omega))).2
    exact ⟨hin, (hlaid.slicesLoop_iff hpos (by omega) hfirst hstart' fun _ => hin).mp hparts⟩
  · rintro ⟨hin, hcuts⟩
    exact (hlaid.slicesLoop_iff hpos (by omega) hfirst hstart' fun _ => hin).mpr hcuts

end Represents

/-! ## What the workers report -/

/-- The slices of a search start and end at boundaries in the range, and its workers report entries that
match, whatever is searched for. -/
structure SlicesMeet (b : FsBuf) (t : Tree) (poolThreads start stop count : ℕ) : Prop where
  parts : ∀ part ∈ (b.slices poolThreads start (b.minOff stop) count).1,
    (Boundary b t part.1 ∧ start ≤ part.1 ∧ part.1 ≤ stop) ∧
      Boundary b t part.2 ∧ start ≤ part.2 ∧ part.2 ≤ stop
  reports : ∀ (m : Matcher) (rules : List SearchRule) (query : Bytes) (hits : List Hits),
    b.workerHits m poolThreads start stop count rules query = some hits →
      ∀ off ∈ found hits, MatchAt b t (m.comparator rules query) off

namespace Represents

variable (h : Represents b root t)
include h

/-- Workers whose slices start at boundaries report entries. -/
theorem matchAt_of_found {start stop poolThreads count : ℕ} (hstop : stop ≤ b.tail)
    (hparts : ∀ part ∈ (b.slices poolThreads start (b.minOff stop) count).1,
      Boundary b t part.1 ∧ part.2 ≤ stop) {m : Matcher} {rules : List SearchRule} {query : Bytes}
    {hits : List Hits} (hhits : b.workerHits m poolThreads start stop count rules query = some hits) {off : ℕ}
    (hoff : off ∈ found hits) : MatchAt b t (m.comparator rules query) off := by
  obtain ⟨part, hpart, hit, hthread, hoff⟩ := exists_of_mem_found (Paging.forall₂_of_mapM hhits) hoff
  obtain ⟨hfrom, hto⟩ := hparts part hpart
  by_cases hrules : rules = []
  · subst hrules
    rw [if_pos rfl, FsBuf.searchThread_eq _ _ _ _ (by decide)] at hthread
    obtain rfl := Option.some.inj hthread
    exact (((h.matchesIn_sliceFound hfrom (hto.trans hstop) _).mem_iff off).mp (List.mem_of_mem_take hoff)).1
  · rw [if_neg hrules] at hthread
    exact h.rulesearchThread_found hfrom (hto.trans hstop) hthread off hoff

/-- A search cuts its range at entries, and reports entries, if and only if each place where it cuts stands
before the end of the range and is one from which the next entry is found: a place in a name or on its
terminator, or by chance one on a tag. -/
theorem slicesMeet_iff {start stop : ℕ} (hstart : Boundary b t start) (hstop : Boundary b t stop)
    (hle : start ≤ stop) (poolThreads count : ℕ) :
    SlicesMeet b t poolThreads start stop count ↔
      ∀ cut ∈ b.sliceCuts poolThreads start stop count, cut < stop ∧ Resyncs b (itemsBefore b t stop) cut := by
  have htail : stop ≤ b.tail := by
    rcases hstop with rfl | ⟨x, hx, rfl⟩
    · exact le_rfl
    · exact (h.searchable.chain.range hx).2.le
  have hmin : b.minOff stop = stop := by
    rw [FsBuf.minOff]
    split <;> omega
  rw [← h.slices_iff hstart hstop hle]
  constructor
  · intro hmeet part hpart
    obtain ⟨⟨hfrom, -, hfromLe⟩, hto, -, htoLe⟩ := hmeet.parts part (by rwa [hmin])
    exact ⟨⟨hfrom, hfromLe⟩, hto, htoLe⟩
  · intro hparts
    refine ⟨fun part hpart => ?_, fun m rules query hits hhits off hoff => ?_⟩
    · rw [hmin] at hpart
      obtain ⟨⟨hfrom, hfromLe⟩, hto, htoLe⟩ := hparts part hpart
      have hge := (b.slices_ordered poolThreads start stop count).1 part hpart
      have hpart := b.slices_le poolThreads start stop count part hpart
      exact ⟨⟨hfrom, hge, hfromLe⟩, hto, hge.trans hpart, htoLe⟩
    · refine h.matchAt_of_found htail (fun part hpart => ?_) hhits hoff
      rw [hmin] at hpart
      exact ⟨(hparts part hpart).1.1, (hparts part hpart).2.2⟩

end Represents

/-! ## A cut on the tag of a file -/

/-- The name of file `j` of the image below. -/
def cutName (j : ℕ) : Bytes := List.replicate 249 97 ++ [UInt8.ofNat (65 + j)]

/-- Five files with long names, the file `bcd`, and five more files. -/
def cutTree : Tree :=
  (List.range 5).foldr (fun j r => .leaf (cutName j) r)
    (.leaf [98, 99, 100]
      ((List.range 4).foldr (fun j r => .leaf (cutName (5 + j)) r) (.leaf (List.replicate 239 97) .nil)))

/-- The bytes of its image. -/
def cutMem : Mem where
  get i :=
    let long := fun i j =>
      if i % 252 < 249 then 97 else if i % 252 = 249 then UInt8.ofNat (65 + (j + i / 252)) else 0
    if i < 10 then (if i = 8 then slash else 0)
    else if i < 1270 then long (i - 10) 0
    else if i < 1275 then ([98, 99, 100, 0, 0] : Bytes).getD (i - 1270) 0
    else if i < 2283 then long (i - 1275) 5
    else if i < 2522 then 97
    else if i = 2525 then 1 else 0

def cutBuf : FsBuf := ⟨cutMem, 4096, 2529, 10⟩

theorem represents_cutBuf : Represents cutBuf [slash] cutTree where
  root_ok := ⟨rfl, rfl, by decide⟩
  root_at := ⟨rfl, rfl, trivial⟩
  first_eq := rfl
  tail_eq := by decide +kernel
  sized := ⟨by decide, by decide⟩
  image := ⟨fun _ => ⟨by decide +kernel, by unfold UpAt; decide +kernel⟩, trivial⟩
  valid := by decide +kernel

/-- The range is cut on the tag of the fifth file. The first slice ends on the tag of `bcd`, and the second
one starts in the name of the file behind it, where the worker finds the rest of the name. -/
theorem not_slicesMeet :
    Represents cutBuf [slash] cutTree ∧ Boundary cutBuf cutTree 10 ∧ Boundary cutBuf cutTree 2529 ∧
    (cutBuf.slices 2 10 (cutBuf.minOff 2529) 1).1 = [(10, 1274), (1279, 2529)] ∧
    cutBuf.workerHits plainMatcher 2 10 2529 1 [] [97] = some [⟨5, [10], 10⟩, ⟨5, [1279], 1279⟩] ∧
    ¬ Boundary cutBuf cutTree 1274 ∧ ¬ MatchAt cutBuf cutTree (plainMatcher.comparator [] [97]) 1279 ∧
    ¬ SlicesMeet cutBuf cutTree 2 10 2529 1 := by
  have hslices : (cutBuf.slices 2 10 (cutBuf.minOff 2529) 1).1 = [(10, 1274), (1279, 2529)] := by
    decide +kernel
  have hnone : ¬ (1274 = 2529 ∨ ∃ x ∈ treeItems 10 [] cutTree, x.off = 1274) := by decide +kernel
  have hfalse : ∀ x ∈ treeItems 10 [] cutTree, x.off ≠ 1279 := by decide +kernel
  refine ⟨represents_cutBuf, .inr ⟨_, List.mem_cons_self, rfl⟩, .inl rfl, hslices, by decide +kernel, hnone,
    fun hmatch => ?_, fun hmeet => ?_⟩
  · obtain ⟨x, hx, hoff, -⟩ := (represents_cutBuf.matchAt_iff _ _).mp hmatch
    exact hfalse x hx hoff
  · exact hnone (hmeet.parts (10, 1274) (by rw [hslices]; exact List.mem_cons_self)).2.1

/-- A range that is cut in a name. -/
theorem Represents.slicesMeet_iff_sample : SlicesMeet rowBuf rowTree 2 10 3291 2 := by
  have hcuts : rowBuf.sliceCuts 2 10 3291 2 = [1650] := by decide +kernel
  have hend : ∃ x ∈ itemsBefore rowBuf rowTree 3291, 1650 + rowBuf.strlen 1650 = x.textEnd := by
    unfold itemsBefore Item.textEnd
    decide +kernel
  have hstart : Boundary rowBuf rowTree 10 := .inr ⟨_, List.mem_cons_self, rfl⟩
  have hstop : Boundary rowBuf rowTree 3291 := .inl rfl
  refine (represents_rowBuf.slicesMeet_iff hstart hstop (by decide) 2 2).mpr ?_
  rw [hcuts, List.forall_mem_singleton]
  obtain ⟨x, hx, hend⟩ := hend
  exact ⟨by decide, .text hx hend⟩

end DeepinAnything
