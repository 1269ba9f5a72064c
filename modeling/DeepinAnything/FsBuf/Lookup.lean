import Mathlib.Data.List.TakeWhile
import DeepinAnything.FsBuf.Scan

/-!
# Paths and lookup

`Represents` says that a buffer is a well-formed image of a tree. On such a buffer
`get_path_offset` finds what stands at the address a path denotes (`getPathOffset_eq`), where the
address is the path behind the root path cut at its slashes, without the last slash.
-/

namespace DeepinAnything

open ByteMem OrderedForest OrderedForest.Forest

/-! ## Paths -/

/-- Names joined by slashes. -/
def joinPath (q : List Bytes) : Bytes := [slash].intercalate q

@[simp] theorem joinPath_nil : joinPath [] = [] := rfl

@[simp] theorem joinPath_singleton (n : Bytes) : joinPath [n] = n := List.intercalate_singleton

theorem joinPath_cons {n : Bytes} {q : List Bytes} (hq : q ≠ []) :
    joinPath (n :: q) = n ++ slash :: joinPath q := by
  simp [joinPath, List.intercalate_cons_of_ne_nil hq]

theorem joinPath_append {q q' : List Bytes} (hq : q ≠ []) (hq' : q' ≠ []) :
    joinPath (q ++ q') = joinPath q ++ slash :: joinPath q' := by
  induction q with
  | nil => exact absurd rfl hq
  | cons x q ih =>
    by_cases hnil : q = []
    · rw [hnil, List.singleton_append, joinPath_cons hq', joinPath_singleton]
    · rw [List.cons_append, joinPath_cons (by simp [hq']), joinPath_cons hnil, ih hnil]
      simp

theorem joinPath_snoc {q : List Bytes} (hq : q ≠ []) (n : Bytes) :
    joinPath (q ++ [n]) = joinPath q ++ slash :: n := by
  rw [joinPath_append hq (by simp), joinPath_singleton]

theorem getLast?_joinPath {q : List Bytes} (hq : ∀ x ∈ q, NameOk x) :
    (joinPath q).getLast? ≠ some slash := by
  rcases List.eq_nil_or_concat' q with rfl | ⟨p, n, rfl⟩
  · simp
  · have hn := hq n (by simp)
    have hlast : n.getLast? ≠ some slash := fun h => hn.2.2 (List.mem_of_getLast? h)
    by_cases hp : p = []
    · simpa [hp] using hlast
    · rw [joinPath_snoc hp, List.getLast?_append_of_ne_nil _ (by simp)]
      obtain ⟨c, cs, rfl⟩ := List.exists_cons_of_ne_nil hn.1
      simpa using hlast

theorem zero_not_mem_joinPath {q : List Bytes} (hq : ∀ x ∈ q, NameOk x) : (0 : UInt8) ∉ joinPath q := by
  induction q with
  | nil => simp
  | cons x q ih =>
    have hx := (hq x List.mem_cons_self).2.1
    have hrest := ih fun y hy => hq y (List.mem_cons_of_mem _ hy)
    by_cases hnil : q = []
    · rwa [hnil, joinPath_singleton]
    · rw [joinPath_cons hnil, List.mem_append, List.mem_cons]
      rintro (h | h | h)
      · exact hx h
      · exact absurd h (by decide)
      · exact hrest h

/-- A path relative to the root, cut at its slashes. -/
def components (p : Bytes) : List Bytes := if p = [] then [] else p.splitOn slash

@[simp] theorem joinPath_components (p : Bytes) : joinPath (components p) = p := by
  unfold components joinPath
  split
  · simp_all
  · exact List.intercalate_splitOn slash

theorem joinPath_ne_nil {q : List Bytes} (hq : ∀ x ∈ q, NameOk x) (hne : q ≠ []) :
    joinPath q ≠ [] := by
  obtain ⟨n, q, rfl⟩ := List.exists_cons_of_ne_nil hne
  have hn := (hq n (by simp)).1
  by_cases h : q = []
  · simpa [h] using hn
  · simp [joinPath_cons h]

theorem components_joinPath {q : List Bytes} (hq : ∀ x ∈ q, NameOk x) :
    components (joinPath q) = q := by
  by_cases hne : q = []
  · simp [hne, components]
  · rw [components, if_neg (joinPath_ne_nil hq hne)]
    exact List.splitOn_intercalate slash (fun x hx => (hq x hx).2.2) hne

theorem components_ne_nil {p : Bytes} (h : p ≠ []) : components p ≠ [] := by
  rw [components, if_neg h]
  exact List.splitOn_ne_nil slash p

theorem slash_not_mem_of_mem_splitOn {p x : Bytes} (h : x ∈ p.splitOn slash) : slash ∉ x := by
  induction p generalizing x with
  | nil => simp_all
  | cons c p ih =>
    rw [List.splitOn_cons_eq_if_modifyHead] at h
    split at h
    · rcases List.mem_cons.mp h with rfl | h
      · simp
      · exact ih h
    · rename_i hc
      obtain ⟨y, ys, hys⟩ := List.exists_cons_of_ne_nil (List.splitOn_ne_nil slash p)
      rw [hys] at h ih
      rcases List.mem_cons.mp h with rfl | h
      · have := ih (x := y) (by simp)
        simp only [List.mem_cons, not_or]
        exact ⟨fun he => hc (by simp [he]), this⟩
      · exact ih (List.mem_cons_of_mem y h)

theorem slash_not_mem_of_mem_components {p x : Bytes} (h : x ∈ components p) : slash ∉ x := by
  unfold components at h
  split at h
  · simp at h
  · exact slash_not_mem_of_mem_splitOn h

/-- One slash at the end is taken off. -/
def chompSlash (p : Bytes) : Bytes := if p.getLast? = some slash then p.dropLast else p

/-- The address that a path denotes below a root path: the root itself can be written without
its last slash, everything else with one more. -/
def address (root p : Bytes) : Option (List Bytes) :=
  if root.isPrefixOf p then some (components (chompSlash (p.drop root.length)))
  else if p ++ [slash] = root ∧ p.getLast? ≠ some slash then some [] else none

/-- The address of what a path leads to in a tree. -/
def resolve (root : Bytes) (t : Tree) (p : Bytes) : Option (List Bytes) :=
  (address root p).filter fun q => (t.entryAt q).isSome

theorem address_append (root rel : Bytes) :
    address root (root ++ rel) = some (components (chompSlash rel)) := by
  rw [address, if_pos (by simp [List.isPrefixOf_iff_prefix]), List.drop_left]

/-- A path of names below the root denotes those names. -/
theorem address_joinPath {root : Bytes} {q : List Bytes} (hq : ∀ x ∈ q, NameOk x) :
    address root (root ++ joinPath q) = some q := by
  rw [address_append, chompSlash, if_neg (getLast?_joinPath hq), components_joinPath hq]

theorem address_eq_none {root p : Bytes} (hp : ¬ root <+: p) :
    address root p = if p ++ [slash] = root ∧ p.getLast? ≠ some slash then some [] else none := by
  rw [address, if_neg (by simpa [List.isPrefixOf_iff_prefix] using hp)]

/-! ## Where an entry stands -/

/-- The siblings before the first one named `x`. -/
def beforeName (x : Bytes) : Tree → Tree
  | .nil => .nil
  | .leaf n r => if n = x then .nil else .leaf n (beforeName x r)
  | .node n k r => if n = x then .nil else .node n k (beforeName x r)

theorem beforeName_append_cons {l r : Tree} {x : Bytes} {e : Entry Bytes} (hl : x ∉ l.names) :
    beforeName x (l ++ cons x e r) = l := by
  induction l with
  | nil => cases e <;> simp [beforeName]
  | leaf n l ih =>
    have hne : n ≠ x := fun h => hl (by simp [h])
    simpa [beforeName, hne] using ih fun h => hl (by simp [h])
  | node n k l _ ih =>
    have hne : n ≠ x := fun h => hl (by simp [h])
    simpa [beforeName, hne] using ih fun h => hl (by simp [h])

/-- The offset of the entry at an address below a listing whose image stands at `off`, 0 if there
is none. -/
def offAt : ℕ → Tree → List Bytes → ℕ
  | _, _, [] => 0
  | off, t, x :: xs =>
    match t.find? x with
    | none => 0
    | some e =>
      if xs = [] then off + entriesSize (beforeName x t)
      else offAt (off + runSize t + belowSize (beforeName x t)) e.kids xs

/-- The offset of what stands at an address of the whole tree; the root path stands for the root. -/
def offOf (base : ℕ) (t : Tree) (q : List Bytes) : ℕ := if q = [] then dataStart else offAt base t q

@[simp] theorem offAt_nil (off : ℕ) (q : List Bytes) : offAt off .nil q = 0 := by
  cases q <;> rfl

theorem offAt_plug {c : List (Frame Bytes)} (hc : Fits c) (base : ℕ) (t : Tree) {q : List Bytes}
    (hq : q ≠ []) : offAt base (plug c t) (path c ++ q) = offAt (runPos base c) t q := by
  induction c generalizing q t with
  | nil => rfl
  | cons f c ih =>
    have hf := hc f (by simp)
    have hne : f.left ++ node f.name t f.right ≠ .nil :=
      append_cons_ne_nil f.left f.right f.name (.node t)
    rw [path_cons, List.append_assoc, plug_cons, ih (fun g hg => hc g (by simp [hg])) _ (by simp)]
    simp only [List.cons_append, List.nil_append, offAt, ← cons_node, find?_append_cons hf, hq,
      if_false, beforeName_append_cons hf, Entry.kids]
    rw [runSize_of_ne_nil (by simpa using hne), cons_node, entriesSize_wrap, runPos_cons,
      Nat.add_assoc _ (frameSize f) 5]

/-- The offset of an entry in its context. -/
theorem offAt_plug_cons {c : List (Frame Bytes)} (hc : Fits c) (base : ℕ) {l r : Tree} {n : Bytes}
    {e : Entry Bytes} (hl : n ∉ l.names) :
    offAt base (plug c (l ++ cons n e r)) (path c ++ [n]) = runPos base c + entriesSize l := by
  rw [offAt_plug hc _ _ (by simp)]
  simp [offAt, find?_append_cons hl, beforeName_append_cons hl]

/-- Nothing stands at an address with a component that cannot be a name. -/
theorem entryAt_eq_none_of_not_nameOk {t : Tree} (hv : t.Valid NameOk) {q : List Bytes} {x : Bytes}
    (hx : x ∈ q) (hbad : ¬ NameOk x) : t.entryAt q = none := by
  cases hentry : t.entryAt q with
  | none => rfl
  | some e => exact absurd (hv.of_entryAt hentry x hx) hbad

theorem offAt_eq_zero_of_entryAt {t : Tree} {q : List Bytes} (off : ℕ) (h : t.entryAt q = none) :
    offAt off t q = 0 := by
  induction q generalizing off t with
  | nil => rfl
  | cons x xs ih =>
    simp only [entryAt, offAt] at h ⊢
    cases hfind : t.find? x with
    | none => rfl
    | some e =>
      rw [hfind] at h
      cases e with
      | leaf =>
        have hxs : xs ≠ [] := by rintro rfl; simp at h
        simp [hxs, Entry.kids]
      | node k =>
        have hxs : xs ≠ [] := by rintro rfl; simp [entryAt] at h
        simpa [hxs, Entry.kids] using ih _ h

theorem le_offAt {t : Tree} {q : List Bytes} {e : Entry Bytes} (off : ℕ) (h : t.entryAt q = some e)
    (hq : q ≠ []) : off ≤ offAt off t q := by
  obtain ⟨p, n, rfl⟩ : ∃ p n, q = p ++ [n] := ⟨q.dropLast, q.getLast hq, (List.dropLast_append_getLast hq).symm⟩
  obtain ⟨c, l, r, rfl, rfl, hc, hl⟩ := exists_plug_of_entryAt h
  have := base_le_runPos off c
  rw [offAt_plug_cons hc off hl]
  omega

/-! ## The lookup loop -/

theorem takeWhile_joinPath {n : Bytes} {q : List Bytes} (hn : slash ∉ n) :
    (joinPath (n :: q)).takeWhile (· ≠ slash) = n := by
  have hall : ∀ c ∈ n, decide (c ≠ slash) = true := fun c hc => by
    simpa using fun h : c = slash => hn (h ▸ hc)
  by_cases hq : q = []
  · rw [hq, joinPath_singleton, List.takeWhile_eq_self_iff.mpr hall]
  · rw [joinPath_cons hq, List.takeWhile_append_of_pos hall, List.takeWhile_cons_of_neg (by simp),
      List.append_nil]

namespace FsBuf

variable {b : FsBuf}

/-- One entry of the lookup: only the name that is the first component of the path is followed. -/
theorem doGetPathOffsetLoop_step {off fuel : ℕ} {n x : Bytes} {xs : List Bytes}
    (hname : b.strAt off = n) (hn : NameOk n) (hlt : off < b.tail) (hx : slash ∉ x) :
    b.doGetPathOffsetLoop (fuel + 1) (joinPath (x :: xs)) off =
      if n = x then
        if xs = [] then off
        else if b.getKidsOffset off = 0 then 0
        else b.doGetPathOffsetLoop fuel (joinPath xs) (b.getKidsOffset off)
      else b.doGetPathOffsetLoop fuel (joinPath (x :: xs)) (b.nextName off) := by
  rw [doGetPathOffsetLoop, if_pos hlt]
  simp only [hname, hn.1, if_false]
  by_cases hnx : n = x
  · subst hnx
    by_cases hxs : xs = []
    · simp [hxs]
    · simp [joinPath_cons hxs, hxs]
  · rw [if_neg hnx]
    by_cases hp : n.isPrefixOf (joinPath (x :: xs))
    · obtain ⟨rest, hrest⟩ := List.isPrefixOf_iff_prefix.mp hp
      -- a match that ends at a slash or at the end would make `n` the first component
      have hfirst : rest.head? ≠ some slash ∧ rest ≠ [] := by
        have htake := takeWhile_joinPath (q := xs) hx
        rw [← hrest] at htake
        constructor
        · intro h
          obtain ⟨r, rfl⟩ : ∃ r, rest = slash :: r := by
            cases rest <;> simp_all
          have := takeWhile_joinPath (n := n) (q := [r]) hn.2.2
          rw [joinPath_cons (by simp), joinPath_singleton, htake] at this
          exact hnx this.symm
        · rintro rfl
          have := takeWhile_joinPath (n := n) (q := []) hn.2.2
          rw [joinPath_singleton, ← List.append_nil n, htake] at this
          exact hnx (by simpa using this.symm)
      rw [if_pos hp, ← hrest, List.drop_left]
      cases rest with
      | nil => exact absurd rfl hfirst.2
      | cons c r =>
        have hc : c ≠ slash := by simpa using hfirst.1
        simp [hc]
    · rw [if_neg hp]

variable (hb : b.Sized)
include hb

/-- Siblings of other names are passed over. -/
theorem doGetPathOffsetLoop_skip {l : Tree} {off d : ℕ} {x : Bytes} {xs : List Bytes} (fuel : ℕ)
    (h : EntriesAt b.head off d l) (hv : l.Valid NameOk) (hl : x ∉ l.names) (hx : slash ∉ x)
    (hfit : off + entriesSize l < b.tail) :
    b.doGetPathOffsetLoop (fuel + l.names.length) (joinPath (x :: xs)) off =
      b.doGetPathOffsetLoop fuel (joinPath (x :: xs)) (off + entriesSize l) := by
  have hcap := hb.tail_le
  induction l generalizing off d with
  | nil => simp
  | leaf n l ih =>
    simp only [entriesSize_leaf, names_leaf, List.length_cons, List.mem_cons, not_or] at hfit hl ⊢
    rw [← Nat.add_assoc, doGetPathOffsetLoop_step (strAt_of_file h.1 hv.1 (by omega)) hv.1 (by omega) hx,
      if_neg (Ne.symm hl.1), nextName_of_file h.1 hv.1 (by omega),
      ih h.2 hv.2.2 hl.2 (by omega)]
    simp only [Nat.add_assoc]
  | node n k l _ ih =>
    simp only [entriesSize_node, names_node, List.length_cons, List.mem_cons, not_or] at hfit hl ⊢
    rw [← Nat.add_assoc, doGetPathOffsetLoop_step (strAt_of_dir h.1 hv.1 (by omega)) hv.1 (by omega) hx,
      if_neg (Ne.symm hl.1), nextName_of_dir h.1 hv.1 (by omega),
      ih h.2 hv.2.2.2 hl.2 (by omega)]
    simp only [Nat.add_assoc]

/-- The loop of `do_get_path_offset` finds what stands at the address. -/
theorem doGetPathOffsetLoop_eq {q : List Bytes} {t : Tree} {off up : ℕ} (fuel : ℕ)
    (hq : ∀ x ∈ q, slash ∉ x) (hne : q ≠ []) (h : TreeAt b.head off up t) (ht : t ≠ .nil)
    (hv : t.Valid NameOk) (hoff : 0 < off) (hfit : off + treeSize t ≤ b.tail)
    (hfuel : treeSize t ≤ fuel) : b.doGetPathOffsetLoop fuel (joinPath q) off = offAt off t q := by
  have hcap := hb.tail_le
  have hmax := hb.tail_le_max
  induction q generalizing t off up fuel with
  | nil => exact absurd rfl hne
  | cons x xs ih =>
    have hx : slash ∉ x := hq x (by simp)
    have hsize := treeSize_of_ne_nil ht
    obtain ⟨hent, hup⟩ := h.1 ht
    cases hfind : t.find? x with
    | none =>
      -- the scan ends at the parent tag
      have hnames := length_names_le t
      have hmem := (find?_eq_none_iff t x).mp hfind
      obtain ⟨fuel, rfl⟩ : ∃ k, fuel = k + 1 + t.names.length :=
        ⟨fuel - t.names.length - 1, by omega⟩
      have hend : b.strAt (off + entriesSize t) = [] :=
        strAt_of_holds (n := []) hup (by simp) (by simp; omega)
      rw [doGetPathOffsetLoop_skip hb _ hent hv hmem hx (by omega), doGetPathOffsetLoop,
        if_pos (by omega)]
      simp [hend, offAt, hfind]
    | some e =>
      obtain ⟨l, r, rfl, hl⟩ := exists_of_find?_eq_some hfind
      have hnames := length_names_le l
      obtain ⟨hvl, hvr, -⟩ := (valid_append _ _).mp hv
      obtain ⟨hentl, hentr⟩ := (entriesAt_append _ _ _ _).mp hent
      have hbelow := ((belowAt_append _ _ _ _).mp h.2).2
      simp only [entriesSize_append, belowSize_append] at hsize
      obtain ⟨fuel, rfl⟩ : ∃ k, fuel = k + 1 + l.names.length :=
        ⟨fuel - l.names.length - 1, by omega⟩
      rw [doGetPathOffsetLoop_skip hb _ hentl hvl hl hx (by omega)]
      simp only [offAt, hfind, beforeName_append_cons hl, runSize_of_ne_nil ht]
      cases e with
      | leaf =>
        simp only [cons_leaf, entriesSize_leaf, belowSize_leaf] at hsize hfit
        have hkids := getKidsOffset_of_file hentr.1 hvr.1 (by omega)
        rw [doGetPathOffsetLoop_step (strAt_of_file hentr.1 hvr.1 (by omega)) hvr.1 (by omega) hx,
          hkids]
        simp [Entry.kids]
      | node k =>
        simp only [cons_node, entriesSize_node, belowSize_node] at hsize hfit hfuel ⊢
        rw [doGetPathOffsetLoop_step (strAt_of_dir hentr.1 hvr.1 (by omega)) hvr.1 (by omega) hx,
          if_pos rfl]
        by_cases hxs : xs = []
        · simp [hxs]
        rw [if_neg hxs, if_neg hxs, Entry.kids]
        by_cases hk : k = .nil
        · subst hk
          have hkids := getKidsOffset_of_dir hentr.1 hvr.1 (by omega) (by simp; omega)
          simp only [if_true] at hkids
          simp [hkids]
        · have hkids := getKidsOffset_of_dir hentr.1 hvr.1 (by omega) (by rw [if_neg hk]; omega)
          rw [if_neg hk, if_neg (by omega)] at hkids
          have hrun : off + (entriesSize (l ++ node x k r) + 5) + belowSize l =
              b.getKidsOffset (off + entriesSize l) := by
            rw [hkids, entriesSize_append, entriesSize_node]
            omega
          have hkt := treeSize_of_ne_nil hk
          have hk' : TreeAt b.head (b.getKidsOffset (off + entriesSize l))
              (x.length + 11 + entriesSize r + (0 + belowSize l) + entriesSize k) k := by
            rw [← hrun]
            rw [runSize_of_ne_nil ht, cons_node] at hbelow
            exact ⟨hbelow.1, hbelow.2.1⟩
          rw [if_neg (by omega), hrun,
            ih _ (fun y hy => hq y (by simp [hy])) hxs hk' hk hvr.2.2.1 (by omega)
              (by omega) (by omega)]

end FsBuf

/-! ## Images of a tree -/

/-- What `new_fs_buf` asks of a root path, which also is a C string. -/
structure RootOk (root : Bytes) : Prop where
  head : root.head? = some slash
  last : root.getLast? = some slash
  zero : (0 : UInt8) ∉ root

/-- The buffer `b` is a well-formed image of the tree `t` below `root`: the root path, and behind
it the runs of `t` in depth-first order up to the tail. -/
structure Represents (b : FsBuf) (root : Bytes) (t : Tree) : Prop where
  root_ok : RootOk root
  root_at : b.head.Holds dataStart (root ++ [0])
  first_eq : b.firstNameOff = dataStart + root.length + 1
  tail_eq : b.tail = b.firstNameOff + treeSize t
  sized : b.Sized
  image : TreeAt b.head b.firstNameOff 0 t
  valid : t.Valid NameOk

/-- A buffer of the given capacity with the image of a tree. -/
def imageBuf (root : Bytes) (t : Tree) (capacity : ℕ) : FsBuf where
  head := Mem.store ⟨fun _ => 0⟩ dataStart (root ++ [0] ++ treeBytes 0 t)
  capacity := capacity
  tail := dataStart + root.length + 1 + treeSize t
  firstNameOff := dataStart + root.length + 1

/-- Every valid tree that fits has a well-formed image. -/
theorem represents_imageBuf (root : Bytes) (t : Tree) (capacity : ℕ) (hroot : RootOk root)
    (hv : t.Valid NameOk) (hlt : dataStart + root.length + 1 + treeSize t ≤ capacity)
    (hcap : capacity ≤ 2 ^ 30) : Represents (imageBuf root t capacity) root t := by
  have hstore := Mem.holds_store (m := ⟨fun _ => 0⟩) dataStart (root ++ [0] ++ treeBytes 0 t)
  obtain ⟨hr, himage⟩ := (Mem.holds_append _ _ _).mp hstore
  exact ⟨hroot, hr, rfl, rfl, ⟨hlt, hcap⟩,
    treeAt_of_holds (by simpa [imageBuf, Nat.add_assoc] using himage), hv⟩

/-- A fresh buffer is the image of the empty tree. -/
theorem represents_newFsBuf {fresh : Option Mem} {capacity : ℕ} {root : Bytes} {b : FsBuf}
    (h : newFsBuf fresh capacity root = some b) (hzero : (0 : UInt8) ∉ root) :
    Represents b root .nil := by
  rw [newFsBuf] at h
  split at h
  · simp at h
  rename_i hmax
  split at h
  · simp at h
  rename_i hroom
  split at h
  · simp at h
  rename_i hroot
  push Not at hmax hroom hroot
  obtain ⟨m, -, rfl⟩ := Option.map_eq_some_iff.mp h
  have hblk : fsNewBlkSize = 2 ^ 20 := rfl
  have hstart : dataStart = 8 := rfl
  exact ⟨⟨hroot.1, hroot.2, hzero⟩, Mem.holds_store _ _, rfl, rfl, ⟨by simp only; omega, hmax⟩,
    ⟨fun h => absurd rfl h, trivial⟩, valid_nil⟩

theorem RootOk.exists_snoc {root : Bytes} (h : RootOk root) : ∃ r, root = r ++ [slash] := by
  have hne : root ≠ [] := by
    rintro rfl
    exact absurd h.head (by simp)
  refine ⟨root.dropLast, ?_⟩
  have hlast := h.last
  rw [List.getLast?_eq_getLast_of_ne_nil hne, Option.some.injEq] at hlast
  rw [← hlast, List.dropLast_append_getLast]

/-! ## Lookups by components -/

/-- Below the root path `do_get_path_offset` looks a path up by its components. -/
structure LooksUp (b : FsBuf) (root : Bytes) (f : List Bytes → ℕ) : Prop where
  root_ok : RootOk root
  rootPath_eq : b.getRootPath = root
  first_eq : b.firstNameOff = dataStart + root.length + 1
  root_found : f [] = dataStart
  empty : ∀ q, [] ∈ q → f q = 0
  append : ∀ rel, b.doGetPathOffset (root ++ rel) = f (components rel)

/-- The names are looked up behind the root path. -/
theorem FsBuf.doGetPathOffset_append {b : FsBuf} {root : Bytes} (hroot : RootOk root)
    (hpath : b.getRootPath = root) (hfirst : b.firstNameOff = dataStart + root.length + 1) (rel : Bytes) :
    b.doGetPathOffset (root ++ rel) =
      if rel = [] then dataStart else b.doGetPathOffsetLoop b.tail rel b.firstNameOff := by
  obtain ⟨r, hr⟩ := hroot.exists_snoc
  have hne : root ++ rel ≠ [] := by simp [hr]
  have hdrop : b.firstNameOff - dataStart - 1 = root.length := by omega
  rw [FsBuf.doGetPathOffset, if_neg (fun h => hne h.1), hpath,
    if_neg (by simp [List.isPrefixOf_iff_prefix]), hdrop, List.drop_left]

namespace LooksUp

variable {b : FsBuf} {root : Bytes} {f : List Bytes → ℕ} (h : LooksUp b root f)
include h

/-- A path with a slash behind its last component is found by nothing but the second try. -/
theorem slash_eq (rel : Bytes) : b.doGetPathOffset (root ++ (rel ++ [slash])) = 0 := by
  rw [h.append]
  exact h.empty _ (by simp [components, List.splitOn_append_cons_self, List.splitOn_nil])

theorem of_not_prefix {p : Bytes} (hp : ¬ root <+: p) :
    b.doGetPathOffset p = if p = [] ∧ root = [slash] then dataStart else 0 := by
  have hlen : b.firstNameOff = dataStart + 2 ↔ root = [slash] := by
    obtain ⟨r, rfl⟩ := h.root_ok.exists_snoc
    have hfirst := h.first_eq
    rw [List.length_append, List.length_singleton] at hfirst
    constructor
    · intro h
      have : r = [] := List.length_eq_zero_iff.mp (by omega)
      simp [this]
    · intro h
      have : r = [] := by simpa using h
      rw [hfirst, this]
      rfl
  rw [FsBuf.doGetPathOffset, h.rootPath_eq,
    if_pos (show ¬ root.isPrefixOf p = true by simpa [List.isPrefixOf_iff_prefix] using hp)]
  simp only [hlen]

/-- `get_path_offset` finds what stands at the address the path denotes. -/
theorem getPathOffset_eq (p : Bytes) : b.getPathOffset p = ((address root p).map f).getD 0 := by
  rw [FsBuf.getPathOffset]
  by_cases hp : root <+: p
  · obtain ⟨rel, rfl⟩ := hp
    rw [address_append, Option.map_some, Option.getD_some]
    by_cases hlast : rel.getLast? = some slash
    · -- the first try fails, the second is without the slash
      obtain ⟨r, rfl⟩ : ∃ r, rel = r ++ [slash] := List.getLast?_eq_some_iff.mp hlast
      rw [h.slash_eq, chompSlash, if_pos hlast, ← List.append_assoc]
      simp [h.append]
    · rw [h.append, chompSlash, if_neg hlast]
      by_cases hrel : rel = []
      · simp [hrel, components, h.root_found, dataStart]
      · have hlast' : (root ++ rel).getLast? ≠ some slash := by
          rwa [List.getLast?_append_of_ne_nil _ hrel]
        simp only [hlast', if_false, List.append_assoc, h.slash_eq]
        split
        · rename_i h0; exact h0.symm
        · rfl
  · rw [h.of_not_prefix hp, address_eq_none hp]
    by_cases hlast : p.getLast? = some slash
    · obtain ⟨r, rfl⟩ : ∃ r, p = r ++ [slash] := List.getLast?_eq_some_iff.mp hlast
      have hr : ¬ root <+: r := fun hr => hp (hr.trans (List.prefix_append _ _))
      have hne : ¬ (r = [] ∧ root = [slash]) := by
        rintro ⟨rfl, rfl⟩
        exact hp (List.prefix_refl _)
      simp [h.of_not_prefix hr, hne]
    · by_cases hroot : p ++ [slash] = root
      · have hfound : b.doGetPathOffset root = dataStart := by
          simpa [h.root_found, components] using h.append []
        by_cases hempty : p = []
        · simp [hempty, ← hroot, h.root_found, dataStart]
        · simp [hempty, hlast, hroot, hfound, h.root_found]
      · have hp' : ¬ root <+: p ++ [slash] := by
          intro hpre
          rcases List.prefix_concat_iff.mp hpre with h | h
          · exact hroot h.symm
          · exact hp h
        have hne : ¬ (p = [] ∧ root = [slash]) := by
          rintro ⟨rfl, rfl⟩
          exact hroot rfl
        simp [hne, hlast, hroot, h.of_not_prefix hp']

end LooksUp

namespace Represents

open FsBuf

variable {b : FsBuf} {root : Bytes} {t : Tree} (h : Represents b root t)
include h

theorem first_pos : dataStart < b.firstNameOff := by
  rw [h.first_eq]; omega

theorem getRootPath_eq : b.getRootPath = root := by
  have hcap := h.sized.tail_le
  have htail := h.tail_eq
  have hfirst := h.first_eq
  exact FsBuf.strAt_of_holds (b := b) h.root_at h.root_ok.zero (by omega)

theorem fits : b.firstNameOff + treeSize t ≤ 2 ^ 30 := h.tail_eq ▸ h.sized.tail_le_max

/-- The names of an image are those of the tree. -/
theorem looksUp : LooksUp b root (offOf b.firstNameOff t) := by
  have hpos := h.first_pos
  refine ⟨h.root_ok, h.getRootPath_eq, h.first_eq, if_pos rfl, fun q hmem => ?_, fun rel => ?_⟩
  · have hentry := entryAt_eq_none_of_not_nameOk h.valid hmem (fun hn => hn.1 rfl)
    rw [offOf, if_neg (List.ne_nil_of_mem hmem), offAt_eq_zero_of_entryAt _ hentry]
  rw [FsBuf.doGetPathOffset_append h.root_ok h.getRootPath_eq h.first_eq]
  by_cases hrel : rel = []
  · simp [hrel, offOf, components]
  rw [if_neg hrel, offOf, if_neg (components_ne_nil hrel)]
  by_cases ht : t = .nil
  · subst ht
    have htail := h.tail_eq
    simp only [treeSize_nil, Nat.add_zero] at htail
    obtain ⟨k, hk⟩ : ∃ k, b.tail = k + 1 := ⟨b.tail - 1, by omega⟩
    rw [offAt_nil, hk, FsBuf.doGetPathOffsetLoop, if_neg (by omega)]
  · have hloop := FsBuf.doGetPathOffsetLoop_eq h.sized (q := components rel) b.tail
      (fun x hx => slash_not_mem_of_mem_components hx) (components_ne_nil hrel) h.image ht h.valid
      (by omega) h.tail_eq.ge (by rw [h.tail_eq]; omega)
    rwa [joinPath_components] at hloop

/-- `get_path_offset` finds what stands at the address the path denotes. -/
theorem getPathOffset_eq (p : Bytes) :
    b.getPathOffset p = ((address root p).map (offOf b.firstNameOff t)).getD 0 :=
  h.looksUp.getPathOffset_eq p

/-- The three things a lookup can come to: nothing, the root, or an entry in its context. -/
theorem lookup_cases (p : Bytes) :
    (resolve root t p = none ∧ b.getPathOffset p = 0) ∨
    (resolve root t p = some [] ∧ b.getPathOffset p = dataStart) ∨
    ∃ c l r n e, t = plug c (l ++ cons n e r) ∧ Fits c ∧ n ∉ l.names ∧
      resolve root t p = some (path c ++ [n]) ∧
      b.getPathOffset p = runPos b.firstNameOff c + entriesSize l := by
  rw [h.getPathOffset_eq, resolve]
  cases haddr : address root p with
  | none => exact .inl ⟨rfl, rfl⟩
  | some q =>
    cases hentry : t.entryAt q with
    | none =>
      have hq : q ≠ [] := by rintro rfl; simp [entryAt] at hentry
      exact .inl ⟨by simp [Option.filter, hentry],
        by simp [offOf, hq, offAt_eq_zero_of_entryAt _ hentry]⟩
    | some e =>
      have hres : (some q).filter (fun q => (t.entryAt q).isSome) = some q := by
        simp [Option.filter, hentry]
      by_cases hq : q = []
      · subst hq
        exact .inr (.inl ⟨hres, by simp [offOf]⟩)
      · obtain ⟨q, n, rfl⟩ : ∃ p n, q = p ++ [n] :=
          ⟨q.dropLast, q.getLast hq, (List.dropLast_append_getLast hq).symm⟩
        obtain ⟨c, l, r, rfl, rfl, hc, hl⟩ := exists_plug_of_entryAt hentry
        exact .inr (.inr ⟨c, l, r, n, e, rfl, hc, hl, hres,
          by simp [offOf, offAt_plug_cons hc _ hl]⟩)

/-- What the buffer says of an entry in its context. -/
structure EntryFacts (b : FsBuf) (c : List (Frame Bytes)) (l r : Tree) (n : Bytes)
    (e : Entry Bytes) (off : ℕ) : Prop where
  pos : dataStart < off
  lt_tail : off + n.length + 1 < b.tail
  nameOk : NameOk n
  strAt : b.strAt off = n
  isFile : b.doIsFile off = !e.isNode
  kidsOff : b.getKidsOffset off = if e.kids = .nil then 0 else runPos b.firstNameOff (⟨l, n, r⟩ :: c)

omit h in
theorem entryFacts {c : List (Frame Bytes)} {l r : Tree} {n : Bytes} {e : Entry Bytes}
    (h : Represents b root (plug c (l ++ cons n e r))) :
    EntryFacts b c l r n e (runPos b.firstNameOff c + entriesSize l) := by
  have hpos := h.first_pos
  have hle := base_le_runPos b.firstNameOff c
  have hcap := h.sized.tail_le
  have hmax := h.sized.tail_le_max
  have htail := h.tail_eq
  have hne := append_cons_ne_nil l r n e
  have hin := runPos_add_le b.firstNameOff c (treeSize (l ++ cons n e r))
  have hsize := treeSize_of_ne_nil hne
  rw [treeSize_plug] at htail
  obtain ⟨hctx, hent, -, -⟩ := h.image.run hne
  obtain ⟨-, hent⟩ := (entriesAt_append _ _ _ _).mp hent
  have hv := ((valid_append _ _).mp (Valid.of_plug h.valid)).2.1
  obtain ⟨hn, -⟩ := (valid_cons _ _ _).mp hv
  cases e with
  | leaf =>
    simp only [cons_leaf, entriesSize_append, entriesSize_leaf] at hsize hin htail hent
    exact ⟨by omega, by omega, hn, strAt_of_file hent.1 hn (by omega),
      doIsFile_of_file hent.1 hn (by omega), getKidsOffset_of_file hent.1 hn (by omega)⟩
  | node k =>
    have hctx' := ((treeAt_plug _ (⟨l, n, r⟩ :: c) k).mp h.image).1.1
    have hrun := runPos_cons b.firstNameOff ⟨l, n, r⟩ c
    have hfsize := frameSize_eq ⟨l, n, r⟩
    simp only [cons_node, entriesSize_append, entriesSize_node, belowSize_append,
      belowSize_node] at hsize hin htail hent hrun hfsize
    have hkids := getKidsOffset_owner h.sized hctx' (t := k) (Valid.of_plug h.valid) (by omega)
    refine ⟨by omega, by omega, hn, strAt_of_dir hent.1 hn (by omega),
      doIsFile_of_dir hent.1 hn (by omega), ?_⟩
    by_cases hk : k = .nil <;> simpa [ownerPos, Entry.kids, hk] using hkids

/-- The kind of what stands at an address can be read off the buffer. -/
theorem kindAt_eq {q : List Bytes} (hq : q ≠ []) (hn : ∀ x ∈ q, NameOk x) :
    t.kindAt q = if b.getPathOffset (root ++ joinPath q) = 0 then none
      else some (!b.doIsFile (b.getPathOffset (root ++ joinPath q))) := by
  have haddr : address root (root ++ joinPath q) = some q := address_joinPath hn
  rcases h.lookup_cases (root ++ joinPath q) with ⟨hres, hoff⟩ | ⟨hres, hoff⟩ |
    ⟨c, l, r, n, e, rfl, hc, hl, hres, hoff⟩
  · rw [resolve, haddr] at hres
    have hentry : t.entryAt q = none := by
      cases hentry : t.entryAt q with
      | none => rfl
      | some e => simp [Option.filter, hentry] at hres
    simp [kindAt, hentry, hoff]
  · rw [resolve, haddr, Option.filter_eq_some_iff] at hres
    exact absurd (Option.some.inj hres.1) hq
  · rw [resolve, haddr, Option.filter_eq_some_iff] at hres
    obtain rfl : q = path c ++ [n] := Option.some.inj hres.1
    have hfacts := h.entryFacts
    have hpos := hfacts.pos
    rw [hoff, if_neg (by omega), hfacts.isFile, kindAt_plug hc]
    simp [kindAt_cons, find?_append_cons hl]

/-- A buffer is an image of one tree only, as far as addresses and kinds go. -/
theorem kindAt_unique {t' : Tree} (h' : Represents b root t') (q : List Bytes) :
    t.kindAt q = t'.kindAt q := by
  by_cases hq : q = []
  · rw [hq, kindAt_nil, kindAt_nil]
  by_cases hn : ∀ x ∈ q, NameOk x
  · rw [h.kindAt_eq hq hn, h'.kindAt_eq hq hn]
  · push Not at hn
    obtain ⟨x, hx, hbad⟩ := hn
    rw [kindAt, kindAt, entryAt_eq_none_of_not_nameOk h.valid hx hbad,
      entryAt_eq_none_of_not_nameOk h'.valid hx hbad]

end Represents

end DeepinAnything
