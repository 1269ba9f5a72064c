import DeepinAnything.FsBuf.Moved
import DeepinAnything.FsBuf.File

/-!
# When a rename is all or nothing

`do_rename_path` takes the source out before it knows that the destination can be put in, does not look at
what the insertion comes to, and can run out of memory for the subtree at the very end. This module says
which renames leave the index as it was or with the source at the destination.
-/

namespace DeepinAnything

open ByteMem OrderedForest OrderedForest.Forest

/-! ## What is found in a buffer -/

/-- Every path to the address finds something there, and of this kind unless it is the root. -/
def FsBuf.Finds (b : FsBuf) (root : Bytes) (a : List Bytes) (isDir : Bool) : Prop :=
  ∀ p, address root p = some a →
    b.getPathOffset p ≠ 0 ∧ (a ≠ [] → b.doIsFile (b.getPathOffset p) = !isDir)

/-- A lookup in an image is one in the tree. -/
theorem Represents.getPathOffset_ne_zero_iff {b : FsBuf} {root : Bytes} {t : Tree} (h : Represents b root t)
    (p : Bytes) : b.getPathOffset p ≠ 0 ↔ ∃ a, address root p = some a ∧ (t.kindAt a).isSome := by
  have hiff : (∃ a, address root p = some a ∧ (t.kindAt a).isSome) ↔ (resolve root t p).isSome := by
    simp only [isSome_kindAt, resolve]
    cases address root p with
    | none => simp
    | some a => cases hentry : t.entryAt a <;> simp [Option.filter, hentry]
  rw [hiff]
  rcases h.lookup_cases p with ⟨hres, hoff⟩ | ⟨hres, hoff⟩ | ⟨c, l, r, n, e, rfl, -, -, hres, hoff⟩
  · simp [hres, hoff]
  · simp [hres, hoff, dataStart]
  · have := h.entryFacts.pos
    rw [hres, hoff]
    simp only [Option.isSome_some, iff_true]
    omega

/-- What is in the tree is found in its image. -/
theorem Represents.finds {b : FsBuf} {root : Bytes} {t : Tree} (h : Represents b root t) {a : List Bytes}
    {isDir : Bool} (hkind : t.kindAt a = some isDir) : b.Finds root a isDir := by
  intro p hp
  refine ⟨(h.getPathOffset_ne_zero_iff p).mpr ⟨a, hp, by rw [hkind]; rfl⟩, fun ha => ?_⟩
  have hentry : (t.entryAt a).isSome := by rw [← isSome_kindAt, hkind]; rfl
  rcases h.lookup_cases p with ⟨hres, -⟩ | ⟨hres, -⟩ | ⟨c, l, r, n, e, rfl, hc, hl, hres, hoff⟩
  · rw [resolve, hp] at hres
    simp [Option.filter, hentry] at hres
  · rw [resolve, hp] at hres
    simp [Option.filter, hentry, ha] at hres
  · rw [resolve, hp] at hres
    obtain rfl : a = path c ++ [n] := by simpa [Option.filter, hentry] using hres
    rw [hoff, h.entryFacts.isFile]
    have hkind' := hkind
    rw [kindAt, entryAt_plug_cons hc e hl] at hkind'
    rw [Option.some.inj hkind']

/-- An entry without a parent tag behind it is found, and nothing else but the root. -/
theorem Unclosed.getPathOffset_ne_zero_iff {b : FsBuf} {root name : Bytes} {isDir : Bool}
    (h : Unclosed b root name isDir) (p : Bytes) :
    b.getPathOffset p ≠ 0 ↔ address root p = some [] ∨ address root p = some [name] := by
  have hfirst := h.first_eq
  have hstart : dataStart = 8 := rfl
  rw [h.looksUp.getPathOffset_eq]
  cases address root p with
  | none => simp
  | some a =>
    simp only [Option.map_some, Option.getD_some, Option.some.injEq]
    by_cases ha : a = []
    · simp [ha, hstart]
    · by_cases hname : a = [name]
      · simp only [hname, if_true, List.cons_ne_nil, if_false, or_true, iff_true]
        omega
      · simp [ha, hname]

theorem Unclosed.finds {b : FsBuf} {root name : Bytes} {isDir : Bool} (h : Unclosed b root name isDir) :
    b.Finds root [name] isDir := by
  intro p hp
  refine ⟨(h.getPathOffset_ne_zero_iff p).mpr (.inr hp), fun _ => ?_⟩
  rw [h.looksUp.getPathOffset_eq, hp]
  simpa using h.reads.2.1

/-! ## The room that an insertion takes -/

/-- The capacity after `add_capacity` has made room for `size` bytes behind the tail, if it had to. -/
def grownCapacity (b : FsBuf) (size : ℕ) : ℕ :=
  if b.capacity ≤ b.tail + size then b.capacity + wholeBlocks size else b.capacity

namespace FsBuf

variable {b : FsBuf}

theorem insertNewName_capacity (hb : b.Sized) {realloc : ℕ → Bool} {off : ℕ} {name : Bytes}
    {isDir createParentTag : Bool} (hname : name.length < 2 ^ 31) {b' : FsBuf}
    (h : b.insertNewName realloc off name isDir createParentTag = some b') :
    b'.tail = b.tail + (newEntrySize name isDir + if createParentTag then 5 else 0) ∧
    b'.capacity = grownCapacity b (newEntrySize name isDir + if createParentTag then 5 else 0) := by
  have htail : b'.tail = b.tail + (newEntrySize name isDir + if createParentTag then 5 else 0) := by
    rcases insertNewName_cases hb realloc off isDir createParentTag hname with ⟨-, hnone⟩ | ⟨-, b₁, hsome, hins⟩
    · rw [hnone] at h
      cases h
    · rw [hsome] at h
      obtain rfl := Option.some.inj h
      exact hins.tail_eq
  refine ⟨htail, ?_⟩
  clear htail
  set size := newEntrySize name isDir + if createParentTag then 5 else 0 with hsize
  have hlt : size < 2 ^ 31 + 16 := by
    rw [hsize, newEntrySize]; split <;> split <;> omega
  have hextra : u32 (name.length + 1 + (if isDir = true then 4 else 1) +
      if createParentTag = true then 1 + 4 else 0) = size :=
    u32_of_lt (hlt.trans (by decide))
  have hmax := hb.tail_le_max
  rw [insertNewName] at h
  simp only [hextra, u32_of_lt (show size + b.tail < 2 ^ 32 by omega), addCapacity_eq hb realloc hlt,
    Option.map_eq_some_iff] at h
  obtain ⟨b₁, hgrow, rfl⟩ := h
  rw [grownCapacity]
  by_cases hroom : b.capacity ≤ b.tail + size
  · rw [if_pos (by omega)] at hgrow
    split at hgrow
    · obtain rfl := Option.some.inj hgrow
      rw [if_pos hroom]
    · cases hgrow
  · rw [if_neg (by omega)] at hgrow
    obtain rfl := Option.some.inj hgrow
    rw [if_neg hroom]

/-- What follows the insertion of the name changes bytes only. -/
theorem insertEntry_ok {realloc : ℕ → Bool} {parentOff kidsOff : ℕ} {name : Bytes} {isDir emptyFolder : Bool}
    {change change' : FsChange} {b' : FsBuf}
    (h : b.insertEntry realloc parentOff kidsOff name isDir emptyFolder change = some (.ok, b', change')) :
    ∃ b₁, b.insertNewName realloc kidsOff name isDir emptyFolder = some b₁ ∧ HeadOnly b₁ b' := by
  cases hnew : b.insertNewName realloc kidsOff name isDir emptyFolder with
  | none => simp [insertEntry, hnew] at h
  | some b₁ =>
    refine ⟨b₁, rfl, ?_⟩
    simp only [insertEntry, hnew] at h
    cases emptyFolder with
    | true =>
      simp only [if_true, Option.map_eq_some_iff, Prod.mk.injEq] at h
      obtain ⟨b₂, hupd, -, rfl, -⟩ := h
      exact ((setParentOffset_headOnly _ _).trans (doSetKidsOff_headOnly _ _)).trans (updateOffsets_headOnly hupd)
    | false =>
      simp only [Bool.false_eq_true, if_false, Option.map_eq_some_iff, Prod.mk.injEq] at h
      obtain ⟨b₂, hupd, -, rfl, -⟩ := h
      refine HeadOnly.trans ?_ (updateOffsets_headOnly hupd)
      split
      · exact setParentOffset_headOnly _ _
      · exact HeadOnly.refl b₁

/-- The buffer is as large as the insertion made it. -/
theorem doInsertPath_capacity (hb : b.Sized) {realloc : ℕ → Bool} {p parent name : Bytes} {isDir : Bool}
    {change change' : FsChange} {b' : FsBuf} (hsplit : strrchrSlash p = some (parent, name))
    (hname : name.length < 2 ^ 31)
    (h : b.doInsertPath realloc p isDir change = some (.ok, b', change')) :
    b.tail ≤ b'.tail ∧ b'.capacity = grownCapacity b (b'.tail - b.tail) := by
  obtain ⟨parentOff, kidsOff, emptyFolder, hentry⟩ : ∃ parentOff kidsOff emptyFolder,
      b.insertEntry realloc parentOff kidsOff name isDir emptyFolder change = some (.ok, b', change') := by
    rw [doInsertPath, hsplit] at h
    simp only at h
    split at h
    · cases h
    split at h
    · cases h
    generalize (if dataStart = b.getPathOffset parent then b.firstNameOff
      else b.getKidsOffset (b.getPathOffset parent)) = kidsOff at h
    split at h
    · cases hfind : b.findSiblingLoop name b.tail kidsOff with
      | none => simp [hfind] at h
      | some off =>
        rw [hfind] at h
        exact ⟨_, _, _, h⟩
    · cases hoff : b.getInsertOffset (b.getPathOffset parent) with
      | none => simp [hoff] at h
      | some off =>
        rw [hoff] at h
        exact ⟨_, _, _, h⟩
  obtain ⟨b₁, hnew, m, rfl⟩ := insertEntry_ok hentry
  obtain ⟨htail, hcap⟩ := insertNewName_capacity hb hname hnew
  simp only [htail, hcap, Nat.add_sub_cancel_left]
  exact ⟨Nat.le_add_right _ _, trivial⟩

end FsBuf

/-! ## What an insertion comes to -/

/-- After the insertion of `name` below `d` the image has the entry; an entry that was put into an empty root
has no parent tag behind it. -/
def Inserts (b' : FsBuf) (root : Bytes) (t : Tree) (d : List Bytes) (name : Bytes) (isDir : Bool) : Prop :=
  (t ≠ .nil ∧ Represents b' root (t.insert d name (newEntry isDir))) ∨
    (t = .nil ∧ d = [] ∧ Unclosed b' root name isDir)

theorem kids_newEntry (isDir : Bool) : (newEntry isDir).kids = .nil := by cases isDir <;> rfl

theorem isNode_newEntry (isDir : Bool) : (newEntry isDir).isNode = isDir := by cases isDir <;> rfl

theorem kindAt_insert_newEntry {t k : Tree} {d : List Bytes} {name : Bytes} (hd : t.entryAt d = some (.node k))
    (hnew : name ∉ k.names) (isDir : Bool) (a : List Bytes) : (t.insert d name (newEntry isDir)).kindAt a =
      if a = d ++ [name] then some isDir else t.kindAt a := by
  rw [kindAt_insert hd hnew (kids_newEntry isDir), isNode_newEntry]

namespace Inserts

variable {b' : FsBuf} {root name : Bytes} {t k : Tree} {d : List Bytes} {isDir : Bool}
  (h : Inserts b' root t d name isDir) (hd : t.entryAt d = some (.node k)) (hnew : name ∉ k.names)
include h hd hnew

theorem finds : b'.Finds root (d ++ [name]) isDir := by
  rcases h with ⟨-, hrep⟩ | ⟨-, rfl, hun⟩
  · exact hrep.finds (by rw [kindAt_insert_newEntry hd hnew, if_pos rfl])
  · exact hun.finds

/-- Besides the new entry, what is found is what was there. -/
theorem getPathOffset_ne_zero_iff (p : Bytes) : b'.getPathOffset p ≠ 0 ↔
    ∃ a, address root p = some a ∧ (a = d ++ [name] ∨ (t.kindAt a).isSome) := by
  rcases h with ⟨-, hrep⟩ | ⟨rfl, rfl, hun⟩
  · rw [hrep.getPathOffset_ne_zero_iff]
    refine exists_congr fun a => and_congr_right fun _ => ?_
    rw [kindAt_insert_newEntry hd hnew]
    by_cases ha : a = d ++ [name] <;> simp [ha]
  · rw [hun.getPathOffset_ne_zero_iff]
    constructor
    · rintro (hp | hp)
      · exact ⟨[], hp, .inr rfl⟩
      · exact ⟨[name], hp, .inl rfl⟩
    · rintro ⟨a, hp, rfl | hkind⟩
      · exact .inr hp
      · cases a with
        | nil => exact .inl hp
        | cons x xs => simp [kindAt_cons, find?] at hkind

end Inserts

namespace FsBuf

/-- `do_insert_path` on an image: it leaves the buffer alone, because the path asks for no insertion or
there is no room, or it inserts. -/
theorem doInsertPath_cases {b : FsBuf} {root : Bytes} {t : Tree} (h : Represents b root t) (p : CPath)
    (realloc : ℕ → Bool) (isDir : Bool) (change : FsChange) :
    ∃ ret b' change', b.doInsertPath realloc p.bytes isDir change = some (ret, b', change') ∧
      ((b' = b ∧ ∀ d k name, insertTarget root t p.bytes = .ok (d, k, name) →
        GrowthFails b realloc (renameInsertSize d k name isDir)) ∨
      ∃ d k name, insertTarget root t p.bytes = .ok (d, k, name) ∧
        ¬ GrowthFails b realloc (renameInsertSize d k name isDir) ∧
        b'.tail = b.tail + renameInsertSize d k name isDir ∧
        b'.capacity = grownCapacity b (renameInsertSize d k name isDir) ∧
        Inserts b' root t d name isDir) := by
  cases htarget : insertTarget root t p.bytes with
  | error ret =>
    exact ⟨_, _, _, insertPath_error h htarget realloc isDir change, .inl ⟨rfl, by simp⟩⟩
  | ok r =>
    obtain ⟨d, k, name⟩ := r
    obtain ⟨parent, hsplit, hname, hres, hentry, -⟩ := insertTarget_eq_ok htarget
    obtain ⟨hok, hlen⟩ := p.nameOk hsplit hname
    have hsame : ∀ d' k' name', Except.ok (ε := Ret) (d, k, name) = .ok (d', k', name') →
        d' = d ∧ k' = k ∧ name' = name := fun d' k' name' heq => by
      simp only [Except.ok.injEq, Prod.mk.injEq] at heq
      exact ⟨heq.1.symm, heq.2.1.symm, heq.2.2.symm⟩
    by_cases ht : t = .nil
    · -- the entry goes into the empty root
      obtain ⟨c, hplug, rfl, -, hoff⟩ := h.exists_plug_of_resolve hres hentry
      subst ht
      cases c with
      | cons f c => exact absurd hplug.symm (plug_cons_ne_nil f c k)
      | nil =>
        have hsize : renameInsertSize (path []) k name isDir = newEntrySize name isDir := if_pos rfl
        rcases doInsertPath_emptyRoot h hsplit hok hlen hoff realloc isDir change with
          ⟨hfail, heq⟩ | ⟨hroom, b', change', heq, -, -, htail, hun⟩
        · refine ⟨_, _, _, heq, .inl ⟨rfl, fun d' k' name' hsome => ?_⟩⟩
          obtain ⟨rfl, rfl, rfl⟩ := hsame _ _ _ hsome
          rwa [hsize]
        · have hcap := (doInsertPath_capacity h.sized hsplit hlen heq).2
          rw [htail, Nat.add_sub_cancel_left] at hcap
          exact ⟨_, _, _, heq, .inr ⟨_, _, _, rfl, by rwa [hsize], by rwa [hsize], by rwa [hsize],
            .inr ⟨rfl, rfl, hun⟩⟩⟩
    · have hsize : renameInsertSize d k name isDir = insertSize k name isDir := by
        rw [renameInsertSize]
        split
        · rename_i hd
          obtain rfl : t = k := by simpa [hd, entryAt] using hentry
          rw [insertSize, if_neg ht, Nat.add_zero]
        · rfl
      rcases insertPath_ok h ht htarget realloc isDir change with ⟨hfail, heq⟩ | ⟨hroom, b', off, heq, hrep⟩
      · refine ⟨_, _, _, heq, .inl ⟨rfl, fun d' k' name' hsome => ?_⟩⟩
        obtain ⟨rfl, rfl, rfl⟩ := hsame _ _ _ hsome
        rwa [hsize]
      · have hgrow : b'.tail = b.tail + insertSize k name isDir := by
          have hsizes := treeSize_insert hentry name (newEntry isDir)
          rw [gapSize_eq, kids_newEntry, isNode_newEntry, treeSize_nil, Nat.add_zero] at hsizes
          have hfirst : b'.firstNameOff = b.firstNameOff := hrep.first_eq.trans h.first_eq.symm
          rw [hrep.tail_eq, h.tail_eq, hsizes, hfirst, Nat.add_assoc]
        have hcap := (doInsertPath_capacity h.sized hsplit hlen heq).2
        rw [hgrow, Nat.add_sub_cancel_left] at hcap
        exact ⟨_, _, _, heq, .inr ⟨_, _, _, rfl, by rwa [hsize], by rwa [hsize], by rwa [hsize],
          .inl ⟨ht, hrep⟩⟩⟩

end FsBuf

/-! ## All or nothing -/

/-- A rename of `src` to `dst` that has returned `ret` and left `b'` is all or nothing: if it has failed, the
image is as before; if not, the destination is found; and in either case all of the source is found where it
was, or all of it at the destination. -/
structure AllOrNothing (b : FsBuf) (root : Bytes) (t : Tree) (src dst : Bytes) (ret : Ret) (b' : FsBuf) :
    Prop where
  unchanged : ret ≠ .ok → b'.tail = b.tail ∧ ∀ i < b.tail, b'.head.get i = b.head.get i
  resolves : ret = .ok → b'.getPathOffset dst ≠ 0
  kept : ∀ S, resolve root t src = some S →
    (∀ s isDir, t.kindAt (S ++ s) = some isDir → b'.Finds root (S ++ s) isDir) ∨
    ∃ D, address root dst = some D ∧
      ∀ s isDir, t.kindAt (S ++ s) = some isDir → b'.Finds root (D ++ s) isDir

/-- The call ends and is all or nothing. -/
def RenamesWhole (b : FsBuf) (root : Bytes) (t : Tree) (heap : Heap) (src dst : Bytes)
    (changes : List FsChange) : Prop :=
  ∃ ret b' ch, b.renamePath heap src dst changes = some (ret, b', ch) ∧ AllOrNothing b root t src dst ret b'

/-- The rename ends before it changes anything: a check refuses it, or there is no memory for a copy of what
is below the source. -/
def RenameStops (b : FsBuf) (root : Bytes) (t : Tree) (heap : Heap) (src dst : Bytes) : Prop :=
  ¬ b.RenameAccepted src dst ∨ ∃ S e, resolve root t src = some S ∧ t.entryAt S = some e ∧
    (S = [] ∨ e.kids ≠ .nil) ∧ heap.malloc (treeSize e.kids) = false

/-- The buffer's sizes when the entry at `q ++ [n]` is out. -/
def sizesWithout (b : FsBuf) (t : Tree) (q : List Bytes) (n : Bytes) : FsBuf :=
  { b with tail := b.firstNameOff + treeSize (t.remove q n) }

/-- The buffer's sizes when the entry at `q ++ [n]` is out, and `name` is in below `d` if it was not. -/
def sizesBetween (b : FsBuf) (t : Tree) (q : List Bytes) (n : Bytes) (d : List Bytes) (name : Bytes)
    (isDir : Bool) : FsBuf :=
  let b₁ := sizesWithout b t q n
  match t.entryAt (d ++ [name]), (t.remove q n).entryAt d with
  | none, some (.node k) =>
    let size := FsBuf.renameInsertSize d k name isDir
    { b₁ with tail := b₁.tail + size, capacity := grownCapacity b₁ size }
  | _, _ => b₁

/-- The destination is a place for the entry at `q ++ [n]`: the name `name` in a directory `d`, not the entry
itself nor below it, and there is memory for the name if it is not there. -/
structure Placed (b : FsBuf) (root : Bytes) (t : Tree) (heap : Heap) (dst : Bytes) (q : List Bytes) (n : Bytes)
    (isDir : Bool) (d : List Bytes) (name : Bytes) : Prop where
  address_eq : address root dst = some (d ++ [name])
  parent : ∃ k, t.entryAt d = some (.node k)
  outside : ¬ q ++ [n] <+: d ++ [name]
  room : t.entryAt (d ++ [name]) = none → ∀ k, (t.remove q n).entryAt d = some (.node k) →
    ¬ GrowthFails (sizesWithout b t q n) heap.realloc (FsBuf.renameInsertSize d k name isDir)

/-- The rename has what it needs: a place for the source and, when there is something below the source,
memory to put that back and an entry besides the source to keep the root's run. -/
def RenameFits (b : FsBuf) (root : Bytes) (t : Tree) (heap : Heap) (src dst : Bytes) : Prop :=
  ∃ q n e d name, resolve root t src = some (q ++ [n]) ∧ t.entryAt (q ++ [n]) = some e ∧
    Placed b root t heap dst q n e.isNode d name ∧
    (e.kids ≠ .nil → t.remove q n ≠ .nil ∧
      ¬ GrowthFails (sizesBetween b t q n d name e.isNode) heap.reallocTree (treeSize e.kids))

/-- The subtree of the source goes back to a place that is not there, or to an image without the parent tag of
its root's run. -/
def RenameAdrift (b : FsBuf) (root : Bytes) (t : Tree) (heap : Heap) (src dst : Bytes) : Prop :=
  ∃ S e, resolve root t src = some S ∧ t.entryAt S = some e ∧ (S = [] ∨ ∃ q n, S = q ++ [n] ∧ e.kids ≠ .nil ∧
    (t.remove q n = .nil ∨ ¬ ∃ d name, Placed b root t heap dst q n e.isNode d name))

/-! ## Between the two halves -/

section Middle

variable {b : FsBuf} {root src : Bytes} {t : Tree} {dst : CPath} {q : List Bytes} {n : Bytes} {e : Entry Bytes}
  {heap : Heap}

/-- Where the rename stands when it looks the destination up again: the destination is not there, or it is
the one of old, or it has been inserted. -/
theorem rename_middle (h : Represents b root t) (hacc : b.RenameAccepted src dst.bytes)
    (hres : resolve root t src = some (q ++ [n])) (hentry : t.entryAt (q ++ [n]) = some e) {b₁ b₂ : FsBuf}
    (hrep₁ : Represents b₁ root (t.remove q n)) (hcap : b₁.capacity = b.capacity)
    (hsame : b.getPathOffset dst.bytes ≠ 0 → b₂ = b₁)
    (hins : b.getPathOffset dst.bytes = 0 → ∃ ret change,
      b₁.doInsertPath heap.realloc dst.bytes e.isNode heap.slot = some (ret, b₂, change)) :
    ((¬ ∃ d name, Placed b root t heap dst.bytes q n e.isNode d name) ∧ b₂.getPathOffset dst.bytes = 0) ∨
    ∃ d name, Placed b root t heap dst.bytes q n e.isNode d name ∧
      ((b₂ = b₁ ∧ ∃ e', t.entryAt (d ++ [name]) = some e' ∧ e'.isNode = e.isNode ∧ e'.kids = .nil) ∨
      (t.entryAt (d ++ [name]) = none ∧ ∃ k, (t.remove q n).entryAt d = some (.node k) ∧ name ∉ k.names ∧
        b₂.tail = b₁.tail + FsBuf.renameInsertSize d k name e.isNode ∧
        b₂.capacity = grownCapacity b₁ (FsBuf.renameInsertSize d k name e.isNode) ∧
        Inserts b₂ root (t.remove q n) d name e.isNode)) := by
  have hremove := kindAt_remove h.valid hentry
  have hfirst : b₁.firstNameOff = b.firstNameOff := hrep₁.first_eq.trans h.first_eq.symm
  have htail₁ : b₁.tail = b.firstNameOff + treeSize (t.remove q n) := by rw [hrep₁.tail_eq, hfirst]
  have hsrc : b.doIsFile (b.getPathOffset src) = !e.isNode := by
    rcases h.lookup_cases src with ⟨hnone, -⟩ | ⟨hroot, -⟩ | ⟨c, l, r, m, e', rfl, hc, hl, hat, hoff⟩
    · simp [hnone] at hres
    · simp [hroot] at hres
    · rw [hoff, h.entryFacts.isFile]
      have heq := Option.some.inj (hat.symm.trans hres)
      rw [← heq, entryAt_plug_cons hc e' hl] at hentry
      rw [Option.some.inj hentry]
  by_cases hoff : b.getPathOffset dst.bytes = 0
  swap
  · -- the destination is there
    obtain rfl := hsame hoff
    rcases h.lookup_cases dst.bytes with ⟨-, hzero⟩ | ⟨-, hroot⟩ | ⟨c, l, r, m, e', rfl, hc, hl, hat, -⟩
    · exact absurd hzero hoff
    · exact absurd hroot hacc.not_root
    have haddr : address root dst.bytes = some (path c ++ [m]) := by
      rw [resolve, Option.filter_eq_some_iff] at hat
      exact hat.1
    have he' := entryAt_plug_cons (r := r) hc e' hl
    by_cases hpre : q ++ [n] <+: path c ++ [m]
    · refine .inl ⟨?_, ?_⟩
      · rintro ⟨d, name, hplaced⟩
        have heq := Option.some.inj (haddr.symm.trans hplaced.address_eq)
        exact hplaced.outside (heq ▸ hpre)
      · by_contra hne
        obtain ⟨a, ha, hkind⟩ := (hrep₁.getPathOffset_ne_zero_iff _).mp hne
        obtain rfl := Option.some.inj (haddr.symm.trans ha)
        rw [hremove, if_pos hpre] at hkind
        cases hkind
    · obtain ⟨-, hnode, hnil⟩ := hacc.replaced h hat (by simp) he' hsrc
      refine .inr ⟨path c, m, ⟨haddr, ⟨l ++ cons m e' r, ?_⟩, hpre, fun hnone => ?_⟩, .inl ⟨rfl, e', he', hnode, hnil⟩⟩
      · simpa [entryAt] using entryAt_plug hc [] (l ++ cons m e' r)
      · rw [he'] at hnone
        cases hnone
  -- it is not there, so it is inserted
  have hlost : ∀ a, address root dst.bytes = some a → t.kindAt a = none := fun a ha => by
    cases hkind : t.kindAt a with
    | none => rfl
    | some isDir => exact absurd hoff ((h.finds hkind) _ ha).1
  have hlost₁ : ∀ a, address root dst.bytes = some a → (t.remove q n).kindAt a = none := fun a ha => by
    rw [hremove, hlost a ha, ite_self]
  have htarget : ∀ {d name}, Placed b root t heap dst.bytes q n e.isNode d name →
      ∃ k, (t.remove q n).entryAt d = some (.node k) ∧
        insertTarget root (t.remove q n) dst.bytes = .ok (d, k, name) := fun {d name} hplaced => by
    obtain ⟨k₀, hk₀⟩ := hplaced.parent
    have hdest := destination_of_accepted h hplaced.address_eq hk₀ hacc
    have hkind : (t.remove q n).kindAt d = some true := by
      rw [hremove, if_neg fun hpre => hplaced.outside (hpre.trans (List.prefix_append _ _)), kindAt, hk₀]
      rfl
    obtain ⟨k, hk⟩ := exists_node_of_kindAt hkind
    have hnone := hlost₁ _ hplaced.address_eq
    rw [kindAt_append hk] at hnone
    refine ⟨k, hk, hdest.insertTarget_eq hk ?_⟩
    rw [← find?_eq_none_iff]
    cases hfind : k.find? name with
    | none => rfl
    | some e₂ => simp [entryKindAt, kindAt_cons, hfind, Entry.kids] at hnone
  obtain ⟨ret, change, hdo⟩ := hins hoff
  obtain ⟨ret', b', change', hdo', hcases⟩ := FsBuf.doInsertPath_cases hrep₁ dst heap.realloc e.isNode heap.slot
  rw [hdo] at hdo'
  obtain ⟨rfl, rfl, rfl⟩ : ret = ret' ∧ b₂ = b' ∧ change = change' := by simpa using hdo'
  rcases hcases with ⟨rfl, hfail⟩ | ⟨d, k, name, hok, hroom, htail, hcapacity, hinserts⟩
  · refine .inl ⟨?_, ?_⟩
    · rintro ⟨d, name, hplaced⟩
      obtain ⟨k, hk, hok⟩ := htarget hplaced
      refine hplaced.room ?_ k hk ((FsBuf.growthFails_congr hcap htail₁ _ _).mp (hfail d k name hok))
      have hnone := hlost _ hplaced.address_eq
      rwa [kindAt, Option.map_eq_none_iff] at hnone
    · by_contra hne
      obtain ⟨a, ha, hkind⟩ := (hrep₁.getPathOffset_ne_zero_iff _).mp hne
      rw [hlost₁ a ha] at hkind
      cases hkind
  obtain ⟨-, -, -, -, hk, hnew⟩ := insertTarget_eq_ok hok
  by_cases haddr : address root dst.bytes = some (d ++ [name])
  · have hnone : t.entryAt (d ++ [name]) = none := by
      have hnone := hlost _ haddr
      rwa [kindAt, Option.map_eq_none_iff] at hnone
    have hkind : (t.remove q n).kindAt d = some true := by
      rw [kindAt, hk]
      rfl
    have hout : ¬ q ++ [n] <+: d := fun hpre => by
      rw [hremove, if_pos hpre] at hkind
      cases hkind
    rw [hremove, if_neg hout] at hkind
    refine .inr ⟨d, name, ⟨haddr, exists_node_of_kindAt hkind, fun hpre => ?_, fun _ k' hk' => ?_⟩,
      .inr ⟨hnone, k, hk, hnew, htail, hcapacity, hinserts⟩⟩
    · rcases List.prefix_concat_iff.mp hpre with heq | hpre
      · rw [heq, hnone] at hentry
        cases hentry
      · exact hout hpre
    · obtain rfl : k = k' := by simpa [hk] using hk'
      exact fun hfail => hroom ((FsBuf.growthFails_congr hcap htail₁ _ _).mpr hfail)
  · refine .inl ⟨?_, ?_⟩
    · rintro ⟨d', name', hplaced⟩
      obtain ⟨k', -, hok'⟩ := htarget hplaced
      rw [hok] at hok'
      simp only [Except.ok.injEq, Prod.mk.injEq] at hok'
      obtain ⟨rfl, rfl, rfl⟩ := hok'
      exact haddr hplaced.address_eq
    · by_contra hne
      obtain ⟨a, ha, rfl | hkind⟩ := (hinserts.getPathOffset_ne_zero_iff hk hnew _).mp hne
      · exact haddr ha
      · rw [hlost₁ a ha] at hkind
        cases hkind

/-- The steps of a rename that the checks let through and that has the memory for a copy of the subtree. -/
theorem rename_steps (h : Represents b root t) (hacc : b.RenameAccepted src dst.bytes)
    (hres : resolve root t src = some (q ++ [n])) (hentry : t.entryAt (q ++ [n]) = some e)
    (hmalloc : ¬ (e.kids ≠ .nil ∧ heap.malloc (treeSize e.kids) = false)) (changes : List FsChange) :
    ∃ b₁ b₂ ch₂, Represents b₁ root (t.remove q n) ∧ b₁.capacity = b.capacity ∧
      (b.getPathOffset dst.bytes ≠ 0 → b₂ = b₁) ∧
      (b.getPathOffset dst.bytes = 0 → ∃ ret change,
        b₁.doInsertPath heap.realloc dst.bytes e.isNode heap.slot = some (ret, b₂, change)) ∧
      (e.kids = .nil → b.renamePath heap src dst.bytes changes = some (.ok, b₂, ch₂)) ∧
      (e.kids ≠ .nil → ∃ tree, IsImage tree e.kids ∧ b.renamePath heap src dst.bytes changes =
        b₂.spliceTree heap.reallocTree (b₂.getPathOffset dst.bytes) tree ch₂) := by
  rcases FsBuf.doRenamePath_cases b heap src dst.bytes changes with ⟨hnot, -⟩ | ⟨-, heq⟩
  · exact absurd hacc hnot
  rw [FsBuf.renamePath, heq]
  rcases h.lookup_cases src with ⟨hnone, -⟩ | ⟨hroot, -⟩ | ⟨c, l, r, m, e', rfl, hc, hl, hat, hoff⟩
  · simp [hnone] at hres
  · simp [hroot] at hres
  obtain ⟨rfl, hm⟩ := List.append_inj' (Option.some.inj (hat.symm.trans hres)) rfl
  obtain rfl : m = n := by simpa using hm
  obtain rfl : e' = e := Option.some.inj ((entryAt_plug_cons hc e' hl).symm.trans hentry)
  rw [hoff, h.entryFacts.isFile]
  rcases FsBuf.doRemovePath_entry h hoff heap.malloc changes true with ⟨-, hk, hfail, -⟩ | ⟨-, hok⟩
  · exact absurd ⟨hk, hfail⟩ hmalloc
  obtain ⟨b₁, kidsTree, hremoved, hrep₁, hcap, hcopy, hnone⟩ := hok
  obtain ⟨ret, b₂, change, hdo, -⟩ := FsBuf.doInsertPath_cases hrep₁ dst heap.realloc e'.isNode heap.slot
  rw [remove_plug hc hl]
  have hmove : ∀ b₂ ch₂, (if b.getPathOffset dst.bytes = 0 then
        (b₁.doInsertPath heap.realloc dst.bytes e'.isNode heap.slot).map fun r' =>
          (r'.2.1, removeChanges b₁.firstNameOff c l r m e' ++ [r'.2.2])
        else some (b₁, removeChanges b₁.firstNameOff c l r m e')) = some (b₂, ch₂) →
      (e'.kids = .nil → b.moveEntry heap src dst.bytes (!e'.isNode) (b.getPathOffset dst.bytes) changes =
        some (.ok, b₂, ch₂)) ∧
      (e'.kids ≠ .nil → ∃ tree, IsImage tree e'.kids ∧
        b.moveEntry heap src dst.bytes (!e'.isNode) (b.getPathOffset dst.bytes) changes =
          b₂.spliceTree heap.reallocTree (b₂.getPathOffset dst.bytes) tree ch₂) := fun b₂ ch₂ hins => by
    have hfirst : b₁.firstNameOff = b.firstNameOff := hrep₁.first_eq.trans h.first_eq.symm
    rw [hfirst] at hins
    constructor
    · intro hk
      obtain rfl := hnone (.inr hk)
      rw [FsBuf.moveEntry_of_removed heap hremoved, hins]
      rfl
    · intro hk
      obtain ⟨tree, rfl, himage⟩ := hcopy rfl hk
      refine ⟨tree, himage, ?_⟩
      rw [FsBuf.moveEntry_of_removed heap hremoved, hins]
      rfl
  by_cases h0 : b.getPathOffset dst.bytes = 0
  · obtain ⟨hleaf, htree⟩ := hmove b₂ _ (by rw [if_pos h0, hdo]; rfl)
    exact ⟨b₁, b₂, _, hrep₁, hcap, fun hne => absurd h0 hne, fun _ => ⟨ret, change, hdo⟩, hleaf, htree⟩
  · obtain ⟨hleaf, htree⟩ := hmove b₁ _ (if_neg h0)
    exact ⟨b₁, b₁, _, hrep₁, hcap, fun _ => rfl, fun hzero => absurd hzero h0, hleaf, htree⟩

/-- The subtree goes back below an empty folder that the destination leads to, or there is no memory. -/
theorem splice_cases {b₂ : FsBuf} {mid k : Tree} {D : List Bytes} {d : Bytes} {tree : Bytes}
    (hrep : Represents b₂ root mid) (hD : address root d = some D) (hne : D ≠ [])
    (hmid : mid.entryAt D = some (.node .nil)) (htree : IsImage tree k) (hk : k ≠ .nil)
    (hv : k.Valid NameOk) (hlen : treeSize k < 2 ^ 31) (reallocTree : ℕ → Bool) (ch : List FsChange) :
    (GrowthFails b₂ reallocTree (treeSize k) ∧
      b₂.spliceTree reallocTree (b₂.getPathOffset d) tree ch = some (.noMem, b₂, ch)) ∨
    (¬ GrowthFails b₂ reallocTree (treeSize k) ∧ ∃ b' ch',
      b₂.spliceTree reallocTree (b₂.getPathOffset d) tree ch = some (.ok, b', ch') ∧
      Represents b' root (mid.setKids D k)) := by
  have hres : resolve root mid d = some D := by
    rw [resolve, hD, Option.filter, hmid]
    rfl
  obtain ⟨c, rfl, rfl, hc, hoff⟩ := hrep.exists_plug_of_resolve hres hmid
  cases c with
  | nil => exact absurd rfl hne
  | cons f c =>
    rw [hoff, setKids_plug hc]
    rcases FsBuf.spliceTree_spec hrep htree hk hv hlen rfl reallocTree ch with ⟨hfail, heq⟩ | ⟨hroom, b', heq, hrep'⟩
    · exact .inl ⟨hfail, heq⟩
    · exact .inr ⟨hroom, b', _, heq, hrep'⟩

/-- Between the halves the image is that of a tree with the destination, without kids, and without the
source. -/
theorem middle_tree (h : Represents b root t) (hentry : t.entryAt (q ++ [n]) = some e) {b₁ b₂ : FsBuf}
    (hrep₁ : Represents b₁ root (t.remove q n)) (hcap : b₁.capacity = b.capacity)
    (hne : t.remove q n ≠ .nil) {d : List Bytes} {name : Bytes}
    (hplaced : Placed b root t heap dst.bytes q n e.isNode d name)
    (hmid : (b₂ = b₁ ∧ ∃ e', t.entryAt (d ++ [name]) = some e' ∧ e'.isNode = e.isNode ∧ e'.kids = .nil) ∨
      (t.entryAt (d ++ [name]) = none ∧ ∃ k, (t.remove q n).entryAt d = some (.node k) ∧ name ∉ k.names ∧
        b₂.tail = b₁.tail + FsBuf.renameInsertSize d k name e.isNode ∧
        b₂.capacity = grownCapacity b₁ (FsBuf.renameInsertSize d k name e.isNode) ∧
        Inserts b₂ root (t.remove q n) d name e.isNode)) :
    ∃ mid : Tree, Represents b₂ root mid ∧
      (e.isNode = true → mid.entryAt (d ++ [name]) = some (.node .nil)) ∧ mid.kindAt (q ++ [n]) = none ∧
      ∀ realloc size, GrowthFails b₂ realloc size ↔
        GrowthFails (sizesBetween b t q n d name e.isNode) realloc size := by
  have hremove := kindAt_remove h.valid hentry
  have hfirst : b₁.firstNameOff = b.firstNameOff := hrep₁.first_eq.trans h.first_eq.symm
  have htail₁ : b₁.tail = b.firstNameOff + treeSize (t.remove q n) := by rw [hrep₁.tail_eq, hfirst]
  have hgone : (t.remove q n).kindAt (q ++ [n]) = none := by rw [hremove, if_pos List.prefix_rfl]
  have hsizes : ∀ {b₂ b₃ : FsBuf}, b₂.tail = b₃.tail → b₂.capacity = b₃.capacity → ∀ realloc size,
      GrowthFails b₂ realloc size ↔ GrowthFails b₃ realloc size := fun htail hcap realloc size => by
    rw [GrowthFails, GrowthFails, htail, hcap]
  have hempty : ∀ {mid : Tree}, mid.kindAt (d ++ [name]) = some e.isNode →
      (∀ x, mid.kindAt (d ++ [name] ++ [x]) = none) → e.isNode = true →
      mid.entryAt (d ++ [name]) = some (.node .nil) := fun {mid} hthere hbelow hnode => by
    obtain ⟨k, hk⟩ := exists_node_of_kindAt (hnode ▸ hthere)
    obtain rfl : k = .nil := eq_nil_of_kindAt fun x => by
      have hnone := hbelow x
      rwa [kindAt_append hk, entryKindAt, if_neg (List.cons_ne_nil _ _)] at hnone
    exact hk
  rcases hmid with ⟨rfl, e', he', hnode, hnil⟩ | ⟨hnone, k, hk, hnew, htail, hcapacity, hinserts⟩
  · refine ⟨_, hrep₁, hempty ?_ fun x => ?_, hgone, hsizes ?_ ?_⟩
    · rw [hremove, if_neg hplaced.outside, kindAt, he', Option.map_some, hnode]
    · rw [hremove, kindAt_append he', entryKindAt, if_neg (List.cons_ne_nil _ _), hnil, kindAt_cons]
      simp [find?]
    · rw [sizesBetween, he']
      exact htail₁
    · rw [sizesBetween, he']
      exact hcap
  · rcases hinserts with ⟨-, hrep₂⟩ | ⟨hempty, -, -⟩
    swap
    · exact absurd hempty hne
    refine ⟨_, hrep₂, hempty ?_ fun x => ?_, ?_, hsizes ?_ ?_⟩
    · rw [kindAt_insert_newEntry hk hnew, if_pos rfl]
    · rw [kindAt_insert_newEntry hk hnew, if_neg (by simp), hremove]
      split
      · rfl
      · cases hbelow : t.entryAt (d ++ [name] ++ [x]) with
        | none => rw [kindAt, hbelow]; rfl
        | some e' =>
          obtain ⟨k', hk', -⟩ := exists_node_of_entryAt_append (List.cons_ne_nil x []) (Option.isSome_of_mem hbelow)
          rw [hnone] at hk'
          cases hk'
    · have hdiff : q ++ [n] ≠ d ++ [name] := fun heq => hplaced.outside (by rw [heq])
      rw [kindAt_insert_newEntry hk hnew, if_neg hdiff, hgone]
    · rw [sizesBetween, hnone, hk]
      exact htail.trans (by rw [htail₁]; rfl)
    · rw [sizesBetween, hnone, hk]
      refine hcapacity.trans ?_
      simp only [grownCapacity, sizesWithout, htail₁, hcap]
      rfl

end Middle

/-! ## Which renames are all or nothing -/

/-- A rename that stops leaves the image. -/
theorem RenameStops.whole {b : FsBuf} {root src dst : Bytes} {t : Tree} (h : Represents b root t) {heap : Heap}
    (hstops : RenameStops b root t heap src dst) (changes : List FsChange) :
    RenamesWhole b root t heap src dst changes := by
  have hsame : ∀ ret : Ret, ret ≠ .ok → AllOrNothing b root t src dst ret b := fun ret hne =>
    ⟨fun _ => ⟨rfl, fun _ _ => rfl⟩, fun hok => absurd hok hne, fun S _ => .inl fun s isDir hkind => h.finds hkind⟩
  rcases FsBuf.doRenamePath_cases b heap src dst changes with ⟨-, ret, hne, heq⟩ | ⟨hacc, heq⟩
  · exact ⟨ret, b, changes, heq, hsame ret hne⟩
  obtain ⟨S, e, hres, hentry, hcopies, hmalloc⟩ := hstops.resolve_left (not_not_intro hacc)
  rcases h.lookup_cases src with ⟨hnone, -⟩ | ⟨hroot, hoff⟩ | ⟨c, l, r, n, e', rfl, hc, hl, hat, hoff⟩
  · simp [hnone] at hres
  · -- the source is the root
    obtain rfl : S = [] := (Option.some.inj (hroot.symm.trans hres)).symm
    obtain rfl : Entry.node t = e := by simpa [entryAt] using hentry
    have hsize : subU32 b.tail b.firstNameOff = treeSize t := by
      have hfits := h.fits
      rw [subU32_of_le (by rw [h.tail_eq]; omega) (by rw [h.tail_eq]; omega), h.tail_eq]
      omega
    refine ⟨.noMem, b, changes, heq.trans ?_, hsame _ (by simp)⟩
    rw [hoff, FsBuf.moveEntry, FsBuf.doRemovePath, hoff]
    simp only [FsBuf.copyTree, if_true, hsize]
    rw [if_neg (show ¬ dataStart = 0 by decide), if_neg (by simpa [Entry.kids] using hmalloc)]
    simp
  · obtain rfl : S = path c ++ [n] := (Option.some.inj (hat.symm.trans hres)).symm
    obtain rfl : e' = e := Option.some.inj ((entryAt_plug_cons hc e' hl).symm.trans hentry)
    exact ⟨.noMem, b, [], heq.trans (FsBuf.moveEntry_noMem h hoff heap (hcopies.resolve_left (by simp)) hmalloc
      _ _ _ _), hsame _ (by simp)⟩

/-- A rename that has what it needs puts the source at the destination. -/
theorem RenameFits.moves {b : FsBuf} {root src : Bytes} {t : Tree} (h : Represents b root t) {heap : Heap}
    {dst : CPath} (hfits : RenameFits b root t heap src dst.bytes) (hgo : ¬ RenameStops b root t heap src dst.bytes)
    (changes : List FsChange) : ∃ b' ch S D, b.renamePath heap src dst.bytes changes = some (.ok, b', ch) ∧
      resolve root t src = some S ∧ address root dst.bytes = some D ∧ (t.kindAt S).isSome ∧
      (∀ s isDir, t.kindAt (S ++ s) = some isDir → b'.Finds root (D ++ s) isDir) ∧
      (∀ e, t.entryAt S = some e → e.kids ≠ .nil → ∃ t', Represents b' root t') := by
  obtain ⟨q, n, e, d, name, hres, hentry, hplaced, hkids⟩ := hfits
  have hacc : b.RenameAccepted src dst.bytes := not_not.mp fun hnot => hgo (.inl hnot)
  have hmalloc : ¬ (e.kids ≠ .nil ∧ heap.malloc (treeSize e.kids) = false) := fun hfail =>
    hgo (.inr ⟨_, e, hres, hentry, .inr hfail.1, hfail.2⟩)
  obtain ⟨b₁, b₂, ch₂, hrep₁, hcap, hsame, hins, hleaf, htree⟩ := rename_steps h hacc hres hentry hmalloc changes
  have hremove := kindAt_remove h.valid hentry
  have hsome : (t.kindAt (q ++ [n])).isSome := by
    rw [kindAt, hentry]
    rfl
  rcases rename_middle h hacc hres hentry hrep₁ hcap hsame hins with ⟨hnot, -⟩ | ⟨d', name', hplaced', hmid⟩
  · exact absurd ⟨d, name, hplaced⟩ hnot
  obtain ⟨rfl, hname⟩ := List.append_inj' (Option.some.inj (hplaced'.address_eq.symm.trans hplaced.address_eq)) rfl
  obtain rfl : name' = name := by simpa using hname
  by_cases hk : e.kids = .nil
  · have hfound : b₂.Finds root (d' ++ [name']) e.isNode := by
      rcases hmid with ⟨rfl, e', he', hnode, -⟩ | ⟨-, k, hk₁, hnew, -, -, hinserts⟩
      · exact hrep₁.finds (by rw [hremove, if_neg hplaced.outside, kindAt, he', Option.map_some, hnode])
      · exact hinserts.finds hk₁ hnew
    refine ⟨b₂, ch₂, _, _, hleaf hk, hres, hplaced.address_eq, hsome, fun s isDir hkind => ?_,
      fun e' he' hk' => absurd (Option.some.inj (he'.symm.trans hentry) ▸ hk) hk'⟩
    -- there is nothing below the source
    rw [kindAt_append hentry, entryKindAt] at hkind
    by_cases hs : s = []
    · rw [if_pos hs] at hkind
      rw [hs, List.append_nil, ← Option.some.inj hkind]
      exact hfound
    · obtain ⟨x, xs, rfl⟩ := List.exists_cons_of_ne_nil hs
      simp [hk, kindAt_cons, find?] at hkind
  · obtain ⟨hne, hroom⟩ := hkids hk
    obtain ⟨mid, hrep₂, hthere, -, hsizes⟩ := middle_tree h hentry hrep₁ hcap hne hplaced hmid
    obtain ⟨tree, himage, heq⟩ := htree hk
    have hnode := isNode_of_kids_ne_nil hk
    have hmidEntry := hthere hnode
    have hvk : e.kids.Valid NameOk := h.valid.kids_of_entryAt hentry
    rcases splice_cases hrep₂ hplaced.address_eq (by simp) hmidEntry himage hk hvk (treeSize_kids_lt h hentry)
      heap.reallocTree ch₂ with ⟨hfail, -⟩ | ⟨-, b', ch', hsplice, hrep'⟩
    · exact absurd ((hsizes _ _).mp hfail) hroom
    have hkind : ∀ s, (mid.setKids (d' ++ [name']) e.kids).kindAt (d' ++ [name'] ++ s) = t.kindAt (q ++ [n] ++ s) :=
      fun s => by
        rw [kindAt_setKids hmidEntry, if_pos (List.prefix_append _ _), List.drop_left, kindAt_append hentry,
          entryKindAt]
        split
        · rename_i hs
          rw [hs, kindAt_nil, hnode]
        · rfl
    exact ⟨b', ch', _, _, heq.trans hsplice, hres, hplaced.address_eq, hsome,
      fun s isDir hs => hrep'.finds ((hkind s).trans hs), fun _ _ _ => ⟨_, hrep'⟩⟩

theorem RenameFits.whole {b : FsBuf} {root src : Bytes} {t : Tree} (h : Represents b root t) {heap : Heap}
    {dst : CPath} (hfits : RenameFits b root t heap src dst.bytes) (hgo : ¬ RenameStops b root t heap src dst.bytes)
    (changes : List FsChange) : RenamesWhole b root t heap src dst.bytes changes := by
  obtain ⟨b', ch, S, D, heq, hres, haddr, hsome, hfinds, -⟩ := hfits.moves h hgo changes
  obtain ⟨isDir, htop⟩ := Option.isSome_iff_exists.mp hsome
  have hfound := hfinds [] isDir (by rw [List.append_nil]; exact htop)
  rw [List.append_nil] at hfound
  refine ⟨.ok, b', ch, heq, fun hne => absurd rfl hne, fun _ => (hfound _ haddr).1,
    fun S' hS' => .inr ⟨D, haddr, ?_⟩⟩
  obtain rfl : S' = S := Option.some.inj (hS'.symm.trans hres)
  exact hfinds

/-- A rename is all or nothing if it stops before it has changed anything or has what it needs; and if it is
all or nothing it stops, or has what it needs, or the subtree of the source is adrift. -/
theorem Represents.renamePath_whole {b : FsBuf} {root : Bytes} {t : Tree} (h : Represents b root t)
    (src : Bytes) (dst : CPath) (heap : Heap) (changes : List FsChange) :
    (RenameStops b root t heap src dst.bytes ∨ RenameFits b root t heap src dst.bytes →
      RenamesWhole b root t heap src dst.bytes changes) ∧
    (RenamesWhole b root t heap src dst.bytes changes →
      RenameStops b root t heap src dst.bytes ∨ RenameFits b root t heap src dst.bytes ∨
        RenameAdrift b root t heap src dst.bytes) := by
  constructor
  · intro hcond
    by_cases hstops : RenameStops b root t heap src dst.bytes
    · exact hstops.whole h changes
    · exact (hcond.resolve_left hstops).whole h hstops changes
  · rintro ⟨ret, b', ch, heq, hwhole⟩
    by_cases hstops : RenameStops b root t heap src dst.bytes
    · exact .inl hstops
    refine .inr ?_
    by_cases hadrift : RenameAdrift b root t heap src dst.bytes
    · exact .inr hadrift
    refine .inl ?_
    have hacc : b.RenameAccepted src dst.bytes := not_not.mp fun hnot => hstops (.inl hnot)
    obtain ⟨q, n, e, hres, hentry⟩ : ∃ q n e, resolve root t src = some (q ++ [n]) ∧
        t.entryAt (q ++ [n]) = some e := by
      rcases h.lookup_cases src with ⟨-, hoff⟩ | ⟨hroot, -⟩ | ⟨c, l, r, n, e, rfl, hc, hl, hat, -⟩
      · exact absurd hoff hacc.source
      · exact absurd ⟨[], _, hroot, rfl, .inl rfl⟩ hadrift
      · exact ⟨_, _, _, hat, entryAt_plug_cons hc e hl⟩
    have hmalloc : ¬ (e.kids ≠ .nil ∧ heap.malloc (treeSize e.kids) = false) := fun hfail =>
      hstops (.inr ⟨_, e, hres, hentry, .inr hfail.1, hfail.2⟩)
    have hmoored : e.kids ≠ .nil → t.remove q n ≠ .nil ∧
        ∃ d name, Placed b root t heap dst.bytes q n e.isNode d name := fun hk => by
      by_contra hnot
      refine hadrift ⟨_, e, hres, hentry, .inr ⟨q, n, rfl, hk, ?_⟩⟩
      by_cases hne : t.remove q n = .nil
      · exact .inl hne
      · exact .inr fun hplaced => hnot ⟨hne, hplaced⟩
    obtain ⟨b₁, b₂, ch₂, hrep₁, hcap, hsame, hins, hleaf, htree⟩ := rename_steps h hacc hres hentry hmalloc changes
    rcases rename_middle h hacc hres hentry hrep₁ hcap hsame hins with ⟨hnot, hzero⟩ | ⟨d, name, hplaced, hmid⟩
    · by_cases hk : e.kids = .nil
      · -- the call returns 0 without the destination
        rw [hleaf hk] at heq
        simp only [Option.some.injEq, Prod.mk.injEq] at heq
        obtain ⟨rfl, rfl, -⟩ := heq
        exact absurd hzero (hwhole.resolves rfl)
      · exact absurd (hmoored hk).2 hnot
    refine ⟨q, n, e, d, name, hres, hentry, hplaced, fun hk => ?_⟩
    obtain ⟨hne, -⟩ := hmoored hk
    refine ⟨hne, fun hfail => ?_⟩
    obtain ⟨mid, hrep₂, hthere, hgone, hsizes⟩ := middle_tree h hentry hrep₁ hcap hne hplaced hmid
    obtain ⟨tree, himage, hsplice⟩ := htree hk
    have hmidEntry := hthere (isNode_of_kids_ne_nil hk)
    have hvk : e.kids.Valid NameOk := h.valid.kids_of_entryAt hentry
    rcases splice_cases hrep₂ hplaced.address_eq (by simp) hmidEntry himage hk hvk (treeSize_kids_lt h hentry)
      heap.reallocTree ch₂ with ⟨-, hnoMem⟩ | ⟨hroom, -⟩
    · -- the call fails with the source gone
      rw [hsplice, hnoMem] at heq
      simp only [Option.some.injEq, Prod.mk.injEq] at heq
      obtain ⟨rfl, rfl, -⟩ := heq
      obtain ⟨htail, hbytes⟩ := hwhole.unchanged (by simp)
      have hcopy : Represents b₂ root t := h.copy (hrep₂.first_eq.trans h.first_eq.symm) htail hrep₂.sized
        fun i _ hi => hbytes i hi
      have hkind := hcopy.kindAt_unique hrep₂ (q ++ [n])
      rw [hgone, kindAt, hentry] at hkind
      cases hkind
    · exact hroom ((hsizes _ _).mpr hfail)

/-- The path `/b/c` below the second file. -/
def pathBC : CPath := ⟨[47, 98, 47, 99], by decide, by decide⟩

/-- `/a` renamed to a path below the file `/b` is gone, and the call returns 0. -/
theorem renamePath_not_whole : Represents (imageBuf [47] FsBuf.twoFiles 64) [47] FsBuf.twoFiles ∧
    (∃ b' ch, (imageBuf [47] FsBuf.twoFiles 64).renamePath FsBuf.freeHeap FsBuf.pathA.bytes pathBC.bytes [] =
      some (.ok, b', ch) ∧ b'.getPathOffset FsBuf.pathA.bytes = 0 ∧ b'.getPathOffset pathBC.bytes = 0) ∧
    ¬ RenamesWhole (imageBuf [47] FsBuf.twoFiles 64) [47] FsBuf.twoFiles FsBuf.freeHeap FsBuf.pathA.bytes
      pathBC.bytes [] := by
  have hcall : ((imageBuf [47] FsBuf.twoFiles 64).renamePath FsBuf.freeHeap FsBuf.pathA.bytes pathBC.bytes []).map
      (fun r => (r.1, r.2.1.getPathOffset FsBuf.pathA.bytes, r.2.1.getPathOffset pathBC.bytes)) =
        some (.ok, 0, 0) := by
    decide +kernel
  obtain ⟨⟨ret, b', ch⟩, heq, hret⟩ := Option.map_eq_some_iff.mp hcall
  simp only [Prod.mk.injEq] at hret
  obtain ⟨rfl, hsrc, hdst⟩ := hret
  refine ⟨FsBuf.represents_twoFiles, ⟨b', ch, heq, hsrc, hdst⟩, ?_⟩
  rintro ⟨ret, b'', ch', heq', hwhole⟩
  rw [heq] at heq'
  simp only [Option.some.injEq, Prod.mk.injEq] at heq'
  obtain ⟨rfl, rfl, -⟩ := heq'
  exact hwhole.resolves rfl hdst

/-- `/a` renamed to `/c` beside `/b`. -/
theorem Represents.renamePath_whole_sample :
    RenamesWhole (imageBuf [47] FsBuf.twoFiles 64) [47] FsBuf.twoFiles FsBuf.freeHeap FsBuf.pathA.bytes
      FsBuf.pathC.bytes [] := by
  have hroom : ∀ k, (FsBuf.twoFiles.remove [] [97]).entryAt [] = some (.node k) →
      ¬ GrowthFails (sizesWithout (imageBuf [47] FsBuf.twoFiles 64) FsBuf.twoFiles [] [97]) FsBuf.freeHeap.realloc
        (FsBuf.renameInsertSize [] k [99] false) := fun k _ => by
    have hsize : FsBuf.renameInsertSize [] k [99] false = 3 := rfl
    rw [hsize]
    decide
  exact (FsBuf.represents_twoFiles.renamePath_whole FsBuf.pathA.bytes FsBuf.pathC FsBuf.freeHeap []).1
    (.inr ⟨[], [97], .leaf, [], [99], by decide, by decide,
      ⟨by decide, ⟨_, rfl⟩, by decide, fun _ => hroom⟩, fun hk => absurd rfl hk⟩)

end DeepinAnything
