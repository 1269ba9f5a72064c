import DeepinAnything.FsBuf.Lookup

/-!
# The path of an entry

`get_path_by_name_off` writes the path of an entry from its end to its start: it scans to the end
of the run, follows the parent tag to the directory that owns it and goes on from there, up to the
root. On a well-formed image it is the inverse of the lookup.
-/

namespace DeepinAnything

open ByteMem OrderedForest OrderedForest.Forest

/-- The names of the frames of a context, each with a slash behind it. -/
def dirPrefix : List (Frame Bytes) → Bytes
  | [] => []
  | f :: c => dirPrefix c ++ f.name ++ [slash]

theorem joinPath_path (c : List (Frame Bytes)) (n : Bytes) :
    joinPath (path c ++ [n]) = dirPrefix c ++ n := by
  induction c generalizing n with
  | nil => simp [dirPrefix]
  | cons f c ih =>
    rw [joinPath_snoc (by simp), path_cons, ih, dirPrefix]
    simp

/-! ## Writing backwards -/

/-- The string `s` ends just before `limit` in `m'`, and nothing else differs from `m`. -/
structure WrittenBelow (m m' : Mem) (dst limit : ℕ) (s : Bytes) : Prop where
  holds : m'.Holds dst s
  length_eq : dst + s.length = limit
  frame : ∀ i, i < dst ∨ limit ≤ i → m'.get i = m.get i

theorem prependPath_eq {m m' : Mem} {dst limit : ℕ} {s : Bytes} (h : WrittenBelow m m' dst limit s)
    (bs : Bytes) (hle : bs.length ≤ dst) :
    ∃ m'', prependPath m' dst bs = .written m'' (dst - bs.length) ∧
      WrittenBelow m m'' (dst - bs.length) limit (bs ++ s) := by
  have hlen := h.length_eq
  refine ⟨_, by rw [prependPath, if_pos hle], ?_, ?_, fun i hi => ?_⟩
  · rw [Mem.holds_append]
    refine ⟨Mem.holds_store _ _, ?_⟩
    have hend : dst - bs.length + bs.length = dst := by omega
    rw [hend]
    exact h.holds.congr fun i _ => Mem.store_get_of_not_mem (by omega)
  · rw [List.length_append]; omega
  · rw [Mem.store_get_of_not_mem (by omega), h.frame i (by omega)]

/-! ## The climb -/

namespace FsBuf

variable {b : FsBuf} (hb : b.Sized)
include hb

/-- The rest of a run is passed over. -/
theorem doGetPathByNameOffLoop_skip {r : Tree} {off d fuel dst : ℕ} {m : Mem}
    (h : EntriesAt b.head off d r) (hv : r.Valid NameOk) (hfit : off + entriesSize r < b.tail) :
    b.doGetPathByNameOffLoop (fuel + r.names.length) off m dst =
      b.doGetPathByNameOffLoop fuel (off + entriesSize r) m dst := by
  have hcap := hb.tail_le
  induction r generalizing off d with
  | nil => simp
  | leaf n r ih =>
    simp only [entriesSize_leaf, names_leaf, List.length_cons] at hfit ⊢
    rw [← Nat.add_assoc, doGetPathByNameOffLoop, if_pos (get_ne_zero_of_holds h.1 hv.1),
      nextName_of_file h.1 hv.1 (by omega), ih h.2 hv.2.2 (by omega)]
    simp only [Nat.add_assoc]
  | node n k r _ ih =>
    simp only [entriesSize_node, names_node, List.length_cons] at hfit ⊢
    rw [← Nat.add_assoc, doGetPathByNameOffLoop, if_pos (get_ne_zero_of_holds h.1 hv.1),
      nextName_of_dir h.1 hv.1 (by omega), ih h.2 hv.2.2.2 (by omega)]
    simp only [Nat.add_assoc]

/-- The loop of `do_get_path_by_name_off`, from the entries `r` at the end of a run. A run costs
at most as many steps as it has bytes. -/
theorem doGetPathByNameOffLoop_eq (fuel : ℕ) {base e s s' d off dst limit : ℕ} {z : Bool}
    {c : List (Frame Bytes)} {r : Tree} {m m' : Mem} {root str : Bytes}
    (hroot : b.head.load dataStart (b.firstNameOff - dataStart - 1) = root) (hbase : 0 < base)
    (hctx : ContextAt b.head base c z s s') (hcv : (plug c .nil).Valid NameOk)
    (hent : EntriesAt b.head off d r) (hv : r.Valid NameOk)
    (hup : UpAt b.head (off + entriesSize r) (upRel base e c))
    (hoff : off + entriesSize r = runPos base c + e) (hin : runPos base c ≤ off)
    (hfit : off + entriesSize r < b.tail) (hwritten : WrittenBelow m m' dst limit str)
    (hlen : root.length + (dirPrefix c).length ≤ dst) (hfuel : off + entriesSize r < fuel) :
    ∃ m'' dst', b.doGetPathByNameOffLoop fuel off m' dst = .written m'' dst' ∧
      WrittenBelow m m'' dst' limit (root ++ dirPrefix c ++ str) := by
  have hmax := hb.tail_le_max
  have hcap := hb.tail_le
  induction c generalizing off d e s s' z r fuel dst m' str with
  | nil =>
    have hnames := length_names_le r
    obtain ⟨fuel, rfl⟩ : ∃ k, fuel = k + 1 + r.names.length := ⟨fuel - r.names.length - 1, by omega⟩
    rw [doGetPathByNameOffLoop_skip hb hent hv hfit, doGetPathByNameOffLoop,
      if_neg (by rw [get_of_up hup]; simp), getReloffByTag_of_up hup (by simp [upRel])]
    simp only [upRel, if_true, hroot, dirPrefix, List.append_nil]
    simp only [dirPrefix, List.length_nil, Nat.add_zero] at hlen
    obtain ⟨m'', heq, hw⟩ := prependPath_eq hwritten root hlen
    exact ⟨m'', _, heq, hw⟩
  | cons f c ih =>
    have hnames := length_names_le r
    have hle := base_le_runPos base c
    have hrun := runPos_cons base f c
    have hsize := frameSize_eq f
    have howner : ownerPos base f c = runPos base c + entriesSize f.left := rfl
    have hrel : upRel base e (f :: c) = runPos base (f :: c) + e + 1 - ownerPos base f c := rfl
    obtain ⟨fuel, rfl⟩ : ∃ k, fuel = k + 1 + 1 + r.names.length :=
      ⟨fuel - r.names.length - 2, by omega⟩
    have hf := ((valid_append _ _).mp (Valid.of_plug (c := c) hcv)).2.1
    have hlevel := hctx.1
    have hparent : off + entriesSize r + 1 - upRel base e (f :: c) = ownerPos base f c := by omega
    simp only [dirPrefix, List.length_append, List.length_singleton] at hlen
    rw [doGetPathByNameOffLoop_skip hb hent hv hfit, doGetPathByNameOffLoop,
      if_neg (by rw [get_of_up hup]; simp), getReloffByTag_of_up hup (by omega)]
    simp only
    rw [if_neg (by omega)]
    simp only [hparent, strAt_of_dir hlevel.owner hf.1 (by omega)]
    obtain ⟨m₁, heq₁, hw₁⟩ := prependPath_eq hwritten [slash] (by simp; omega)
    obtain ⟨m₂, heq₂, hw₂⟩ := prependPath_eq hw₁ f.name (by simp; omega)
    have hend : ownerPos base f c + f.name.length + 5 + entriesSize f.right =
        runPos base c + frameSize f := by omega
    simp only [heq₁, heq₂]
    rw [doGetPathByNameOffLoop, if_pos (get_ne_zero_of_holds hlevel.owner hf.1),
      nextName_of_dir hlevel.owner hf.1 (by omega)]
    obtain ⟨m'', dst', heq, hw⟩ := ih fuel hctx.2 (Valid.replug hcv valid_nil) hlevel.right hf.2.2.2
      (hend ▸ hlevel.up) hend (by omega) (by omega) hw₂ (by rw [List.length_singleton]; omega) (by omega)
    exact ⟨m'', dst', heq, by simpa [dirPrefix] using hw⟩

/-- The loop on a path that is longer than the room in front of `dst`. -/
theorem doGetPathByNameOffLoop_tooLong (fuel : ℕ) {base e s s' d off dst : ℕ} {z : Bool}
    {c : List (Frame Bytes)} {r : Tree} {m' : Mem} {root : Bytes}
    (hroot : b.head.load dataStart (b.firstNameOff - dataStart - 1) = root) (hbase : 0 < base)
    (hctx : ContextAt b.head base c z s s') (hcv : (plug c .nil).Valid NameOk)
    (hent : EntriesAt b.head off d r) (hv : r.Valid NameOk)
    (hup : UpAt b.head (off + entriesSize r) (upRel base e c))
    (hoff : off + entriesSize r = runPos base c + e) (hin : runPos base c ≤ off)
    (hfit : off + entriesSize r < b.tail) (hlen : dst < root.length + (dirPrefix c).length)
    (hfuel : off + entriesSize r < fuel) :
    b.doGetPathByNameOffLoop fuel off m' dst = .outOfBounds := by
  have hmax := hb.tail_le_max
  have hcap := hb.tail_le
  induction c generalizing off d e s s' z r fuel dst m' with
  | nil =>
    have hnames := length_names_le r
    obtain ⟨fuel, rfl⟩ : ∃ k, fuel = k + 1 + r.names.length := ⟨fuel - r.names.length - 1, by omega⟩
    rw [doGetPathByNameOffLoop_skip hb hent hv hfit, doGetPathByNameOffLoop,
      if_neg (by rw [get_of_up hup]; simp), getReloffByTag_of_up hup (by simp [upRel])]
    simp only [dirPrefix, List.length_nil, Nat.add_zero] at hlen
    simp only [upRel, if_true, hroot, prependPath]
    rw [if_neg (by omega)]
  | cons f c ih =>
    have hnames := length_names_le r
    have hle := base_le_runPos base c
    have hrun := runPos_cons base f c
    have hsize := frameSize_eq f
    have howner : ownerPos base f c = runPos base c + entriesSize f.left := rfl
    have hrel : upRel base e (f :: c) = runPos base (f :: c) + e + 1 - ownerPos base f c := rfl
    obtain ⟨fuel, rfl⟩ : ∃ k, fuel = k + 1 + 1 + r.names.length :=
      ⟨fuel - r.names.length - 2, by omega⟩
    have hf := ((valid_append _ _).mp (Valid.of_plug (c := c) hcv)).2.1
    have hlevel := hctx.1
    have hparent : off + entriesSize r + 1 - upRel base e (f :: c) = ownerPos base f c := by omega
    simp only [dirPrefix, List.length_append, List.length_singleton] at hlen
    rw [doGetPathByNameOffLoop_skip hb hent hv hfit, doGetPathByNameOffLoop,
      if_neg (by rw [get_of_up hup]; simp), getReloffByTag_of_up hup (by omega)]
    simp only
    rw [if_neg (by omega)]
    simp only [hparent, strAt_of_dir hlevel.owner hf.1 (by omega), prependPath, List.length_singleton]
    by_cases hslash : 1 ≤ dst
    · rw [if_pos hslash]
      simp only
      by_cases hname : f.name.length ≤ dst - 1
      · rw [if_pos hname]
        simp only
        have hend : ownerPos base f c + f.name.length + 5 + entriesSize f.right =
            runPos base c + frameSize f := by omega
        rw [doGetPathByNameOffLoop, if_pos (get_ne_zero_of_holds hlevel.owner hf.1),
          nextName_of_dir hlevel.owner hf.1 (by omega)]
        exact ih fuel hctx.2 (Valid.replug hcv valid_nil) hlevel.right hf.2.2.2 (hend ▸ hlevel.up) hend
          (by omega) (by omega) (by omega) (by omega)
      · rw [if_neg hname]
    · rw [if_neg hslash]

end FsBuf

namespace Represents

variable {b : FsBuf} {root : Bytes}

theorem load_root {t : Tree} (h : Represents b root t) :
    b.head.load dataStart (b.firstNameOff - dataStart - 1) = root := by
  have hfirst := h.first_eq
  refine (Mem.holds_load dataStart _).unique ((Mem.holds_append _ _ _).mp h.root_at).1 ?_
  rw [Mem.length_load]
  omega

/-- The rest of a run from an entry on, with the parent tag behind it, and the context of the run. -/
theorem entry_run {c : List (Frame Bytes)} {l r : Tree} {n : Bytes} {e : Entry Bytes}
    (h : Represents b root (plug c (l ++ cons n e r))) :
    ∃ z s s' d, ContextAt b.head b.firstNameOff c z s s' ∧
      EntriesAt b.head (runPos b.firstNameOff c + entriesSize l) d (cons n e r) ∧
      (cons n e r).Valid NameOk ∧
      UpAt b.head (runPos b.firstNameOff c + entriesSize l + entriesSize (cons n e r))
        (upRel b.firstNameOff (entriesSize (l ++ cons n e r)) c) ∧
      runPos b.firstNameOff c + entriesSize l + entriesSize (cons n e r) < b.tail := by
  have hne := append_cons_ne_nil l r n e
  have htail := h.tail_eq
  have hin := runPos_add_le b.firstNameOff c (treeSize (l ++ cons n e r))
  have hsize := treeSize_of_ne_nil hne
  rw [treeSize_plug] at htail
  rw [entriesSize_append] at hsize
  obtain ⟨hctx, hent, hup, -⟩ := h.image.run hne
  obtain ⟨-, hent⟩ := (entriesAt_append _ _ _ _).mp hent
  refine ⟨_, _, _, _, hctx, hent, ((valid_append _ _).mp (Valid.of_plug h.valid)).2.1, ?_, by omega⟩
  rwa [Nat.add_assoc, ← entriesSize_append]

/-- `get_path_by_name_off` of an entry in its context: the root path and the names that lead to the
entry, at the end of the caller's buffer. -/
theorem doGetPathByNameOff_eq {c : List (Frame Bytes)} {l r : Tree} {n : Bytes} {e : Entry Bytes}
    (h : Represents b root (plug c (l ++ cons n e r))) (m : Mem) (pathSize : ℕ)
    (hlen : (root ++ joinPath (path c ++ [n])).length < pathSize) :
    ∃ m' dst, b.doGetPathByNameOff (runPos b.firstNameOff c + entriesSize l) m pathSize =
        .written m' dst ∧
      WrittenBelow m m' dst pathSize (root ++ joinPath (path c ++ [n]) ++ [0]) := by
  have hcap := h.sized.tail_le
  obtain ⟨z, s, s', d, hctx, hent, hv, hup, hfit⟩ := h.entry_run
  rw [joinPath_path, List.length_append, List.length_append] at hlen
  have hstart : WrittenBelow m m pathSize pathSize [] := ⟨trivial, rfl, fun _ _ => rfl⟩
  obtain ⟨m₁, heq₁, hw₁⟩ := prependPath_eq hstart (n ++ [0]) (by simp; omega)
  obtain ⟨m', dst, heq, hw⟩ := FsBuf.doGetPathByNameOffLoop_eq h.sized (b.capacity + 1) h.load_root
    (lt_of_le_of_lt (Nat.zero_le _) h.first_pos) hctx (Valid.replug h.valid valid_nil) hent hv
    hup (by simp [Nat.add_assoc]) (by omega) hfit hw₁ (by simp; omega) (by omega)
  refine ⟨m', dst, ?_, by simpa [joinPath_path] using hw⟩
  rw [FsBuf.doGetPathByNameOff, h.entryFacts.strAt, heq₁]
  exact heq

/-- A path that does not fit is written over the start of the caller's buffer. -/
theorem doGetPathByNameOff_tooLong {c : List (Frame Bytes)} {l r : Tree} {n : Bytes} {e : Entry Bytes}
    (h : Represents b root (plug c (l ++ cons n e r))) (m : Mem) (pathSize : ℕ)
    (hlen : pathSize ≤ (root ++ joinPath (path c ++ [n])).length) :
    b.doGetPathByNameOff (runPos b.firstNameOff c + entriesSize l) m pathSize = .outOfBounds := by
  have hcap := h.sized.tail_le
  obtain ⟨z, s, s', d, hctx, hent, hv, hup, hfit⟩ := h.entry_run
  rw [joinPath_path, List.length_append, List.length_append] at hlen
  rw [FsBuf.doGetPathByNameOff, h.entryFacts.strAt, prependPath]
  by_cases hname : (n ++ [0]).length ≤ pathSize
  · rw [if_pos hname]
    rw [List.length_append, List.length_singleton] at hname
    exact FsBuf.doGetPathByNameOffLoop_tooLong h.sized (b.capacity + 1) h.load_root
      (lt_of_le_of_lt (Nat.zero_le _) h.first_pos) hctx (Valid.replug h.valid valid_nil) hent hv
      hup (by simp [Nat.add_assoc]) (by omega) hfit (by simp; omega) (by omega)
  · rw [if_neg hname]

/-- `get_path_by_name_off` of the entry at an address. -/
theorem doGetPathByNameOff_offAt {t : Tree} (h : Represents b root t) {q : List Bytes}
    {e : Entry Bytes} (hq : q ≠ []) (hentry : t.entryAt q = some e) (m : Mem) (pathSize : ℕ)
    (hlen : (root ++ joinPath q).length < pathSize) :
    ∃ m' dst, b.doGetPathByNameOff (offAt b.firstNameOff t q) m pathSize = .written m' dst ∧
      WrittenBelow m m' dst pathSize (root ++ joinPath q ++ [0]) := by
  obtain ⟨q, n, rfl⟩ : ∃ p n, q = p ++ [n] :=
    ⟨q.dropLast, q.getLast hq, (List.dropLast_append_getLast hq).symm⟩
  obtain ⟨c, l, r, rfl, rfl, hc, hl⟩ := exists_plug_of_entryAt hentry
  rw [offAt_plug_cons hc _ hl]
  exact h.doGetPathByNameOff_eq m pathSize hlen

theorem getPathOffset_joinPath {t : Tree} (h : Represents b root t) {q : List Bytes}
    {e : Entry Bytes} (hq : q ≠ []) (hentry : t.entryAt q = some e) :
    b.getPathOffset (root ++ joinPath q) = offAt b.firstNameOff t q := by
  rw [h.getPathOffset_eq, address_joinPath (h.valid.of_entryAt hentry), Option.map_some,
    Option.getD_some, offOf, if_neg hq]

/-- Different entries have different paths. -/
theorem joinPath_inj {t : Tree} (h : Represents b root t) {q₁ q₂ : List Bytes} {e₁ e₂ : Entry Bytes}
    (h₁ : t.entryAt q₁ = some e₁) (h₂ : t.entryAt q₂ = some e₂)
    (heq : root ++ joinPath q₁ = root ++ joinPath q₂) : q₁ = q₂ := by
  rw [← components_joinPath (h.valid.of_entryAt h₁), List.append_cancel_left heq,
    components_joinPath (h.valid.of_entryAt h₂)]

/-- Different entries stand at different offsets, since an offset has one path. -/
theorem offAt_inj {t : Tree} (h : Represents b root t) {q₁ q₂ : List Bytes} {e₁ e₂ : Entry Bytes}
    (hq₁ : q₁ ≠ []) (hq₂ : q₂ ≠ []) (h₁ : t.entryAt q₁ = some e₁) (h₂ : t.entryAt q₂ = some e₂)
    (heq : offAt b.firstNameOff t q₁ = offAt b.firstNameOff t q₂) : q₁ = q₂ := by
  refine h.joinPath_inj h₁ h₂ ?_
  generalize hsize : (root ++ joinPath q₁).length + (root ++ joinPath q₂).length + 1 = pathSize
  obtain ⟨m₁, dst₁, heq₁, hw₁⟩ := h.doGetPathByNameOff_offAt hq₁ h₁ ⟨fun _ => 0⟩
    pathSize (by omega)
  obtain ⟨m₂, dst₂, heq₂, hw₂⟩ := h.doGetPathByNameOff_offAt hq₂ h₂ ⟨fun _ => 0⟩
    pathSize (by omega)
  rw [heq, heq₂, PathWrite.written.injEq] at heq₁
  obtain ⟨rfl, rfl⟩ := heq₁
  have hlen := hw₁.length_eq.trans hw₂.length_eq.symm
  exact List.append_cancel_right (hw₁.holds.unique hw₂.holds (by omega))

/-- A path that leads to an entry is the entry's path, but for a slash at the end. -/
theorem eq_joinPath_of_address {p : Bytes} {q : List Bytes} (hroot : root <+: p)
    (haddr : address root p = some q) :
    p = root ++ joinPath q ∨ p = root ++ joinPath q ++ [slash] := by
  obtain ⟨rel, rfl⟩ := hroot
  rw [address_append, Option.some.injEq] at haddr
  rw [← haddr, joinPath_components, chompSlash]
  split
  · rename_i hlast
    obtain ⟨r, rfl⟩ : ∃ r, rel = r ++ [slash] := List.getLast?_eq_some_iff.mp hlast
    exact .inr (by simp)
  · exact .inl rfl

/-- Lookup and path reconstruction are inverse to each other, and no two entries share a path or
an offset. -/
theorem path_lookup_inverse {t : Tree} (h : Represents b root t) :
    (∀ q e, q ≠ [] → t.entryAt q = some e →
      b.getPathOffset (root ++ joinPath q) = offAt b.firstNameOff t q ∧
      ∀ m pathSize, (root ++ joinPath q).length < pathSize → ∃ m' dst,
        b.doGetPathByNameOff (offAt b.firstNameOff t q) m pathSize = .written m' dst ∧
        WrittenBelow m m' dst pathSize (root ++ joinPath q ++ [0])) ∧
    (∀ p, root <+: p → b.getPathOffset p ≠ 0 → b.getPathOffset p ≠ dataStart →
      ∃ p', (p = p' ∨ p = p' ++ [slash]) ∧ ∀ m pathSize, p'.length < pathSize → ∃ m' dst,
        b.doGetPathByNameOff (b.getPathOffset p) m pathSize = .written m' dst ∧
        WrittenBelow m m' dst pathSize (p' ++ [0])) ∧
    ∀ q₁ q₂ e₁ e₂, q₁ ≠ [] → q₂ ≠ [] → t.entryAt q₁ = some e₁ → t.entryAt q₂ = some e₂ → q₁ ≠ q₂ →
      root ++ joinPath q₁ ≠ root ++ joinPath q₂ ∧
      offAt b.firstNameOff t q₁ ≠ offAt b.firstNameOff t q₂ := by
  refine ⟨fun q e hq hentry => ⟨h.getPathOffset_joinPath hq hentry, fun m pathSize hlen =>
    h.doGetPathByNameOff_offAt hq hentry m pathSize hlen⟩, ?_, ?_⟩
  · intro p hroot hfound hne
    have hoff := h.getPathOffset_eq p
    cases haddr : address root p with
    | none => simp [hoff, haddr] at hfound
    | some q =>
      rw [haddr, Option.map_some, Option.getD_some, offOf] at hoff
      have hq : q ≠ [] := by
        rintro rfl
        exact hne hoff
      rw [if_neg hq] at hoff
      cases hentry : t.entryAt q with
      | none => exact absurd (hoff.trans (offAt_eq_zero_of_entryAt _ hentry)) hfound
      | some e =>
        refine ⟨_, eq_joinPath_of_address hroot haddr, fun m pathSize hlen => ?_⟩
        rw [hoff]
        exact h.doGetPathByNameOff_offAt hq hentry m pathSize hlen
  · intro q₁ q₂ e₁ e₂ hq₁ hq₂ h₁ h₂ hne
    exact ⟨fun heq => hne (h.joinPath_inj h₁ h₂ heq), fun heq => hne (h.offAt_inj hq₁ hq₂ h₁ h₂ heq)⟩

/-- The file `/d/a`, which stands behind the run of the root. -/
theorem path_lookup_inverse_sample :
    (imageBuf [47] (.node [100] (.leaf [97] .nil) .nil) 64).getPathOffset [47, 100, 47, 97] = 21 ∧
    ∃ m' dst, (imageBuf [47] (.node [100] (.leaf [97] .nil) .nil) 64).doGetPathByNameOff 21
        ⟨fun _ => 0⟩ 16 = .written m' dst ∧ m'.Holds dst ([47, 100, 47, 97] ++ [0]) := by
  have hrep := represents_imageBuf [47] (.node [100] (.leaf [97] .nil) .nil) 64
    ⟨rfl, rfl, by decide⟩ (by decide) (by decide) (by decide)
  obtain ⟨hoff, hpath⟩ := (path_lookup_inverse hrep).1 [[100], [97]] .leaf (by simp) (by decide)
  obtain ⟨m', dst, heq, hw⟩ := hpath ⟨fun _ => 0⟩ 16 (by decide)
  exact ⟨hoff, m', dst, heq, hw.holds⟩

end Represents

end DeepinAnything
