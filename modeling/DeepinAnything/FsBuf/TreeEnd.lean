import DeepinAnything.FsBuf.Scan
import DeepinAnything.Lib.Loop

/-!
# The loop of `get_tree_end_offset` on any image

`load_fs_buf` takes the bytes of a file as they are, and the loop that looks for the end of a tree goes
back to a run it has remembered. It ends all the same: a run it goes back to starts behind the start of
the run it has just scanned.
-/

namespace DeepinAnything

open ByteMem OrderedForest OrderedForest.Forest

namespace FsBuf

variable {b : FsBuf}

/-- One round of the loop of `get_tree_end_offset`, at a name and with the kids of the last directory
that has any. -/
def treeEndRound (b : FsBuf) : ℕ × ℕ → ℕ × ℕ ⊕ ℕ
  | (nameOff, lastKidsOff) =>
    if nameOff < b.tail then
      if b.head.get nameOff ≠ 0 then
        let kidsOff := b.getKidsOffset nameOff
        .inl (b.nextName nameOff, if kidsOff ≠ 0 then kidsOff else lastKidsOff)
      else if lastKidsOff ≠ 0 then .inl (lastKidsOff, 0)
      else .inr (nameOff + 1 + 4)
    else .inr b.tail

/-- The string at an offset ends inside the buffer. -/
def StringEnds (b : FsBuf) (off : ℕ) : Prop := ∃ i, off ≤ i ∧ i < b.tail ∧ b.head.get i = 0

/-- The loop with fuel gives what the loop returns. -/
theorem getTreeEndOffsetLoop_of_run {fuel out : ℕ} {s : ℕ × ℕ}
    (h : Loop.run b.treeEndRound fuel s = some out) : b.getTreeEndOffsetLoop fuel s.1 s.2 = out := by
  induction fuel generalizing s with
  | zero => cases h
  | succ fuel ih =>
    obtain ⟨nameOff, lastKidsOff⟩ := s
    rw [Loop.run, treeEndRound] at h
    rw [getTreeEndOffsetLoop]
    by_cases htail : nameOff < b.tail
    · rw [if_pos htail] at h ⊢
      by_cases hname : b.head.get nameOff ≠ 0
      · rw [if_pos hname] at h ⊢
        exact ih h
      · rw [if_neg hname] at h ⊢
        by_cases hlast : lastKidsOff ≠ 0
        · rw [if_pos hlast] at h ⊢
          exact ih h
        · rw [if_neg hlast] at h ⊢
          exact Option.some.inj h
    · rw [if_neg htail] at h ⊢
      exact Option.some.inj h

/-- `get_tree_end_offset` gives what its loop returns. -/
theorem getTreeEndOffset_of_run {startOff out : ℕ}
    (h : Loop.run b.treeEndRound b.loopFuel (startOff, 0) = some out) : b.getTreeEndOffset startOff = out :=
  getTreeEndOffsetLoop_of_run h

/-! ## The variant -/

theorem StringEnds.strlen_lt {off : ℕ} (h : b.StringEnds off) : off + b.strlen off < b.tail := by
  obtain ⟨i, hi, htail, hzero⟩ := h
  rw [strlen, strAt]
  have hlen : off + (b.head.cstr (b.capacity - off) off).length ≤ i := Mem.length_cstr_le hi hzero
  omega

/-- A string does not go on behind the block. -/
theorem add_strlen_le {off limit : ℕ} (hcap : b.capacity ≤ limit) (hoff : off ≤ limit) :
    off + b.strlen off ≤ limit := by
  have hlen := b.head.length_cstr_le_limit (b.capacity - off) off
  rw [strlen, strAt]
  omega

/-- Kids stand behind the directory, wherever its tag says they are. -/
theorem lt_getKidsOffset {off : ℕ} (hstr : off + b.strlen off ≤ maxFsbufSize)
    (hkids : b.getKidsOffset off ≠ 0) : off < b.getKidsOffset off := by
  have hrel := b.getReloffByTag_lt (off + b.strlen off + 1)
  have hmax : maxFsbufSize = 2 ^ 30 := rfl
  rw [getKidsOffset] at hkids ⊢
  split at hkids
  · exact absurd rfl hkids
  rename_i hfile
  rw [if_neg hfile]
  dsimp only at hkids ⊢
  split at hkids
  · exact absurd rfl hkids
  rename_i hrel0
  rw [if_neg hrel0, u32_of_lt (by omega)]
  omega

/-- At most `n` rounds follow: the run in hand starts at `start`, the cursor is in it or behind it, and
the run remembered starts later. -/
def TreeEndWithin (b : FsBuf) (n : ℕ) (s : ℕ × ℕ) : Prop :=
  ∃ start, start ≤ s.1 ∧ (s.2 ≠ 0 → start < s.2) ∧
    n = (b.tail - start) * (b.tail + 1) + (b.tail - s.1)

/-- One round lets the start of the run go up, or the cursor. -/
theorem TreeEndWithin.round {n : ℕ} {s s' : ℕ × ℕ}
    (hstr : s.1 < b.tail → b.head.get s.1 ≠ 0 → s.1 + b.strlen s.1 ≤ maxFsbufSize) (h : b.TreeEndWithin n s)
    (hround : b.treeEndRound s = .inl s') : ∃ m < n, b.TreeEndWithin m s' := by
  obtain ⟨nameOff, lastKidsOff⟩ := s
  obtain ⟨start, hstart, hlast, rfl⟩ := h
  rw [treeEndRound] at hround
  split at hround
  · rename_i hlt
    split at hround
    · rename_i hname
      obtain rfl := Sum.inl.inj hround
      have hnext := b.lt_nextName nameOff
      refine ⟨_, ?_, start, by simp only at hstart ⊢; omega, fun hne => ?_, rfl⟩
      · simp only
        omega
      · by_cases hkids : b.getKidsOffset nameOff ≠ 0
        · simp only [if_pos hkids]
          exact lt_of_le_of_lt hstart (lt_getKidsOffset (hstr hlt hname) hkids)
        · simp only [if_neg hkids] at hne ⊢
          exact hlast hne
    · split at hround
      · rename_i hkids
        obtain rfl := Sum.inl.inj hround
        refine ⟨_, ?_, lastKidsOff, le_refl _, fun hne => absurd rfl hne, rfl⟩
        -- the run remembered starts behind this one
        have hlt' := hlast hkids
        have hsub : b.tail - lastKidsOff + 1 ≤ b.tail - start := by simp only at hstart hlt'; omega
        have hmul := Nat.mul_le_mul_right (b.tail + 1) hsub
        rw [Nat.add_mul] at hmul
        simp only
        omega
      · cases hround
  · cases hround

/-- The loop returns if no string that it comes to is longer than a buffer may be. -/
theorem exists_treeEnd {startOff : ℕ}
    (hstr : ∀ s, Loop.Reaches b.treeEndRound (startOff, 0) s → s.1 < b.tail → b.head.get s.1 ≠ 0 →
      s.1 + b.strlen s.1 ≤ maxFsbufSize) : ∃ out, Loop.run b.treeEndRound b.loopFuel (startOff, 0) = some out := by
  have hstart : b.TreeEndWithin _ (startOff, 0) := ⟨startOff, le_refl _, fun hne => absurd rfl hne, rfl⟩
  obtain ⟨out, hout⟩ := Loop.exists_run b.TreeEndWithin hstart
    fun n s s' hs hwithin hround => hwithin.round (hstr s hs) hround
  refine ⟨out, Loop.run_mono ?_ hout⟩
  have hmul := Nat.mul_le_mul_right (b.tail + 1) (Nat.sub_le b.tail startOff)
  have hfuel : b.loopFuel = b.tail * (b.tail + 1) + (b.tail + 1) + 1 := by rw [loopFuel, Nat.succ_mul]
  simp only
  omega

/-- The loop of `get_tree_end_offset` returns, whatever stands in the buffer and wherever it starts, if
the strings it comes to end in the buffer. -/
theorem treeEnd_returns (htail : b.tail ≤ maxFsbufSize) (startOff : ℕ)
    (hend : ∀ s, Loop.Reaches b.treeEndRound (startOff, 0) s → s.1 < b.tail → b.head.get s.1 ≠ 0 →
      b.StringEnds s.1) : ∃ out, Loop.run b.treeEndRound b.loopFuel (startOff, 0) = some out :=
  exists_treeEnd fun s hs hlt hname => (hend s hs hlt hname).strlen_lt.le.trans htail

/-- A tag that sends the loop back into the run it has come from: the kids of the directory at 8 start
inside its own tag, so the second run is a part of the first. -/
theorem treeEnd_returns_sample :
    ∃ out, Loop.run (FsBuf.mk (Mem.store ⟨fun _ => 0⟩ 8 [97, 0, 5, 0, 0, 0, 98, 0, 0]) 17 17 9).treeEndRound
      (FsBuf.mk (Mem.store ⟨fun _ => 0⟩ 8 [97, 0, 5, 0, 0, 0, 98, 0, 0]) 17 17 9).loopFuel (8, 0) = some out :=
  treeEnd_returns (by decide) 8 fun s _ hlt _ =>
    ⟨16, Nat.le_of_lt_succ hlt, by decide, by decide⟩

/-! ## Where the loop ends -/

/-- The loop has not gone back in front of `off`, and is not to. -/
def TreeEndBehind (off : ℕ) (s : ℕ × ℕ) : Prop := off ≤ s.1 ∧ (s.2 ≠ 0 → off ≤ s.2)

theorem TreeEndBehind.round (hb : b.Sized) {off : ℕ} {s s' : ℕ × ℕ} (h : TreeEndBehind off s)
    (hround : b.treeEndRound s = .inl s') : TreeEndBehind off s' := by
  obtain ⟨nameOff, lastKidsOff⟩ := s
  obtain ⟨hoff, hlast⟩ := h
  rw [treeEndRound] at hround
  split at hround
  · rename_i hlt
    split at hround
    · obtain rfl := Sum.inl.inj hround
      refine ⟨hoff.trans (b.lt_nextName nameOff).le, fun hne => ?_⟩
      by_cases hkids : b.getKidsOffset nameOff ≠ 0
      · have hstr := add_strlen_le hb.capacity_le (hlt.le.trans hb.tail_le_max)
        simp only [if_pos hkids]
        exact hoff.trans (lt_getKidsOffset hstr hkids).le
      · simp only [if_neg hkids] at hne ⊢
        exact hlast hne
    · split at hround
      · rename_i hkids
        obtain rfl := Sum.inl.inj hround
        exact ⟨hlast hkids, fun hne => absurd rfl hne⟩
      · cases hround
  · cases hround

/-- The end of a tree is not in front of its start, whatever stands in the buffer. -/
theorem le_getTreeEndOffset (hb : b.Sized) {off : ℕ} (htail : off ≤ b.tail) : off ≤ b.getTreeEndOffset off := by
  obtain ⟨out, hrun⟩ := @exists_treeEnd b off fun s _ hlt _ =>
    add_strlen_le hb.capacity_le (hlt.le.trans hb.tail_le_max)
  obtain ⟨s, ⟨hoff, -⟩, hround⟩ := Loop.exists_last (TreeEndBehind off)
    (fun _ _ hbehind hround => hbehind.round hb hround) ⟨le_rfl, fun hne => absurd rfl hne⟩ hrun
  rw [getTreeEndOffset_of_run hrun]
  rw [treeEndRound] at hround
  split at hround
  · split at hround
    · cases hround
    · split at hround
      · cases hround
      · obtain rfl := Sum.inr.inj hround
        omega
  · obtain rfl := Sum.inr.inj hround
    exact htail

end FsBuf

end DeepinAnything
