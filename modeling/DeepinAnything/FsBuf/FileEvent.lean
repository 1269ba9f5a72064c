import DeepinAnything.FsBuf.AllOrNothing
import DeepinAnything.FsBuf.Change
import DeepinAnything.FsBuf.PathMax

/-!
# What file events make of an image

A file that has come into being, has gone or has been renamed is entered in an index by one call of
`insert_path`, `remove_path` or `rename_path`. Seen from outside an image is a shape: it says at which names
below the root something stands, and whether that is a directory. This module says which events a shape
admits and what they make of it, and that the calls do just that: the event is carried out if the shape admits
it, and if not the call fails and leaves the image alone.
-/

namespace DeepinAnything

open ByteMem OrderedForest OrderedForest.Forest

/-! ## Events on a shape -/

/-- What stands at the names below the root: nothing, a directory (`true`), or something else. -/
abbrev Shape := List Bytes → Option Bool

/-- What has happened to a file, with the names that lead to it. -/
inductive FileEvent where
  | insert (q : List Bytes) (isDir : Bool)
  | remove (q : List Bytes)
  | rename (src dst : List Bytes)
deriving DecidableEq, Repr

/-- What stands at `src` can be renamed to `dst`, which is a new name in a directory, or replaces a file by a
file or an empty directory by a directory. -/
structure CanRename (K : Shape) (src dst : List Bytes) : Prop where
  source : (K src).isSome
  not_root : dst ≠ []
  outside : ¬ src <+: dst
  parent : K dst.dropLast = some true
  replaced : (K dst).isSome → K dst = K src ∧ ∀ x, K (dst ++ [x]) = none

/-- The checks of `rename_path` find something wrong: nothing is renamed, the root is to be replaced, there is no
place for the new name, or what has the name already is of another kind or not empty. -/
def RefusesRename (K : Shape) (src dst : List Bytes) : Prop :=
  K src = none ∨ dst = [] ∨ K dst.dropLast = none ∨
    (K dst).isSome ∧ (K dst ≠ K src ∨ K src = some true ∧ ∃ x, (K (dst ++ [x])).isSome)

namespace FileEvent

/-- The shape admits the event. -/
def Possible (K : Shape) : FileEvent → Prop
  | insert q _ => K q = none ∧ K q.dropLast = some true
  | remove q => (K q).isSome
  | rename src dst => CanRename K src dst

/-- The shape after the event. The root stays when everything below it is removed. -/
def apply (K : Shape) : FileEvent → Shape
  | insert q isDir => Function.update K q (some isDir)
  | remove q => fun p => if p ≠ [] ∧ q <+: p then none else K p
  | rename src dst => fun p =>
    if dst <+: p then K (src ++ p.drop dst.length) else if src <+: p then none else K p

open Classical in
/-- What an index is to make of the event: one that its shape does not admit changes nothing. -/
noncomputable def replay (K : Shape) (e : FileEvent) : Shape := if e.Possible K then e.apply K else K

/-- The event is one that `rename_path` carries out or refuses. It knows of no other renames, such as one of a
directory to below itself, and damages the image. -/
def Tame (K : Shape) : FileEvent → Prop
  | rename src dst => CanRename K src dst ∨ RefusesRename K src dst
  | _ => True

/-- There is memory for what the event asks for, and the root has an entry that stays beside the new one. -/
def Supplied (b : FsBuf) (t : Tree) (heap : Heap) : FileEvent → Prop
  | insert q isDir => t ≠ .nil ∧ ∀ d name k, q = d ++ [name] → t.entryAt d = some (.node k) →
      ¬ GrowthFails b heap.realloc (insertSize k name isDir)
  | remove _ => True
  | rename src dst => ∀ q n e d name, src = q ++ [n] → t.entryAt (q ++ [n]) = some e → dst = d ++ [name] →
      (e.kids ≠ .nil → heap.malloc (treeSize e.kids) = true ∧
        ¬ GrowthFails (sizesBetween b t q n d name e.isNode) heap.reallocTree (treeSize e.kids)) ∧
      (t.entryAt (d ++ [name]) = none → t.remove q n ≠ .nil ∧
        ∀ k, (t.remove q n).entryAt d = some (.node k) →
          ¬ GrowthFails (sizesWithout b t q n) heap.realloc (FsBuf.renameInsertSize d k name e.isNode))

/-- The names that the event is about are those of files, and their paths below the root are C strings whose
length is an `int`. -/
def Addressed (root : Bytes) : FileEvent → Prop
  | insert q _ | remove q => (∀ x ∈ q, NameOk x) ∧ (root ++ joinPath q).length < 2 ^ 31
  | rename src dst => ((∀ x ∈ src, NameOk x) ∧ (root ++ joinPath src).length < 2 ^ 31) ∧
      (∀ x ∈ dst, NameOk x) ∧ (root ++ joinPath dst).length < 2 ^ 31

/-- The call that enters the event in an index. -/
def call (b : FsBuf) (root : Bytes) (heap : Heap) (changes : List FsChange) : FileEvent → Option (Ret × FsBuf)
  | insert q isDir => (b.insertPath heap.realloc (root ++ joinPath q) isDir heap.slot).map fun r => (r.1, r.2.1)
  | remove q => (b.removePath (root ++ joinPath q) changes).map fun r => (r.1, r.2.1)
  | rename src dst =>
    (b.renamePath heap (root ++ joinPath src) (root ++ joinPath dst) changes).map fun r => (r.1, r.2.1)

theorem replay_of_possible {K : Shape} {e : FileEvent} (h : e.Possible K) : e.replay K = e.apply K := if_pos h

theorem replay_of_not_possible {K : Shape} {e : FileEvent} (h : ¬ e.Possible K) : e.replay K = K := if_neg h

end FileEvent

/-- What a call for an event comes to: it succeeds if the shape of the image admits the event, it leaves the image
alone otherwise, and the image is then one of the shape that the event makes. -/
structure Outcome (b : FsBuf) (root : Bytes) (t : Tree) (e : FileEvent) (ret : Ret) (b' : FsBuf) : Prop where
  ok_iff : ret = .ok ↔ e.Possible t.kindAt
  unchanged : ret ≠ .ok → b' = b
  tree : ∃ t', Represents b' root t' ∧ t'.kindAt = e.replay t.kindAt

/-- A root path as a mount point gives it, with one slash at its end. -/
structure RootPath (root : Bytes) : Prop where
  ok : RootOk root
  single : root.dropLast.getLast? ≠ some slash

variable {b : FsBuf} {root : Bytes} {t : Tree} {e : FileEvent} {heap : Heap}

/-- A call that fails without leaving a trace. -/
theorem Outcome.refused (h : Represents b root t) {ret : Ret} (hret : ret ≠ .ok) (hnot : ¬ e.Possible t.kindAt) :
    Outcome b root t e ret b :=
  ⟨iff_of_false hret hnot, fun _ => rfl, t, h, (FileEvent.replay_of_not_possible hnot).symm⟩

/-- A call that succeeds. -/
theorem Outcome.carriedOut {b' : FsBuf} {t' : Tree} (h : Represents b' root t') (hpossible : e.Possible t.kindAt)
    (hkind : t'.kindAt = e.apply t.kindAt) : Outcome b root t e .ok b' :=
  ⟨iff_of_true rfl hpossible, fun hne => absurd rfl hne, t', h,
    hkind.trans (FileEvent.replay_of_possible hpossible).symm⟩

/-! ## Paths of events -/

/-- The path of a name in a directory below the root. -/
theorem RootPath.destination (hroot : RootPath root) {d : List Bytes} {name : Bytes}
    (hq : ∀ x ∈ d ++ [name], NameOk x) (hlen : (root ++ joinPath (d ++ [name])).length < 2 ^ 31) :
    Destination root (root ++ joinPath (d ++ [name])) d name := by
  have hname := hq name (by simp)
  have hshort : name.length < 2 ^ 31 := by
    by_cases hd : d = []
    · rw [hd, List.nil_append, joinPath_singleton, List.length_append] at hlen
      omega
    · rw [joinPath_snoc hd] at hlen
      simp only [List.length_append, List.length_cons] at hlen
      omega
  refine ⟨hname, hshort, ?_, address_joinPath hq⟩
  by_cases hd : d = []
  · obtain ⟨r, rfl⟩ := hroot.ok.exists_snoc
    refine ⟨r, ?_, ?_⟩
    · rw [hd, List.nil_append, joinPath_singleton, List.append_assoc, List.singleton_append]
      exact strrchrSlash_append r hname.2.2
    · have hnot : ¬ r ++ [slash] <+: r := fun hpre => by
        have := hpre.length_le
        rw [List.length_append, List.length_singleton] at this
        omega
      have hsingle := hroot.single
      rw [List.dropLast_concat] at hsingle
      rw [address_eq_none hnot, if_pos ⟨rfl, hsingle⟩, hd]
  · refine ⟨root ++ joinPath d, ?_, address_joinPath fun x hx => hq x (List.mem_append_left _ hx)⟩
    rw [joinPath_snoc hd, ← List.append_assoc]
    exact strrchrSlash_append _ hname.2.2

/-- The path of names below the root as a C string. -/
def RootPath.path (hroot : RootPath root) (q : List Bytes) (hq : ∀ x ∈ q, NameOk x)
    (hlen : (root ++ joinPath q).length < 2 ^ 31) : CPath :=
  ⟨root ++ joinPath q, by
    rw [List.mem_append, not_or]
    exact ⟨hroot.ok.zero, zero_not_mem_joinPath hq⟩, hlen⟩

theorem resolve_joinPath {q : List Bytes} (hq : ∀ x ∈ q, NameOk x) :
    resolve root t (root ++ joinPath q) = if (t.kindAt q).isSome then some q else none := by
  rw [resolve, address_joinPath hq, isSome_kindAt, Option.filter]

/-- A name that is not in a listing is not there below the directory. -/
theorem not_mem_names_iff {k : Tree} {d : List Bytes} (hd : t.entryAt d = some (.node k)) (name : Bytes) :
    name ∉ k.names ↔ t.kindAt (d ++ [name]) = none := by
  rw [← find?_eq_none_iff, kindAt_append hd, entryKindAt, if_neg (by simp), kindAt_cons, Entry.kids]
  cases k.find? name <;> simp

/-! ## Insertions and removals -/

/-- The insertion that a name below a directory asks for. -/
theorem insertTarget_joinPath (hroot : RootPath root) {d : List Bytes} {name : Bytes}
    (hq : ∀ x ∈ d ++ [name], NameOk x) (hlen : (root ++ joinPath (d ++ [name])).length < 2 ^ 31) :
    (t.kindAt (d ++ [name]) = none ∧ ∃ k, t.entryAt d = some (.node k) ∧
      insertTarget root t (root ++ joinPath (d ++ [name])) = .ok (d, k, name)) ∨
    (¬ (t.kindAt (d ++ [name]) = none ∧ t.kindAt d = some true) ∧ ∃ ret,
      insertTarget root t (root ++ joinPath (d ++ [name])) = .error ret) := by
  have hdest := hroot.destination hq hlen
  obtain ⟨parent, hsplit, haddr⟩ := hdest.parent
  by_cases hpossible : t.kindAt (d ++ [name]) = none ∧ t.kindAt d = some true
  · obtain ⟨k, hk⟩ := exists_node_of_kindAt hpossible.2
    exact .inl ⟨hpossible.1, k, hk, hdest.insertTarget_eq hk ((not_mem_names_iff hk name).mpr hpossible.1)⟩
  · refine .inr ⟨hpossible, ?_⟩
    cases htarget : insertTarget root t (root ++ joinPath (d ++ [name])) with
    | error ret => exact ⟨ret, rfl⟩
    | ok p =>
      obtain ⟨q, k, name'⟩ := p
      obtain ⟨parent', hsplit', -, hres, hentry, hnew⟩ := insertTarget_eq_ok htarget
      obtain ⟨rfl, rfl⟩ : parent = parent' ∧ name = name' := by simpa [hsplit] using hsplit'
      rw [resolve, haddr, Option.filter_eq_some_iff] at hres
      obtain rfl := Option.some.inj hres.1
      exact absurd ⟨(not_mem_names_iff hentry name).mp hnew, by rw [kindAt, hentry]; rfl⟩ hpossible

/-- An insertion does what its event does. -/
theorem Represents.outcome_insert (h : Represents b root t) (hroot : RootPath root) {q : List Bytes} {isDir : Bool}
    (hq : (FileEvent.insert q isDir).Addressed root)
    (hsupply : (FileEvent.insert q isDir).Possible t.kindAt → (FileEvent.insert q isDir).Supplied b t heap)
    (changes : List FsChange) : ∃ ret b', (FileEvent.insert q isDir).call b root heap changes = some (ret, b') ∧
      Outcome b root t (.insert q isDir) ret b' := by
  obtain ⟨hnames, hlen⟩ := hq
  rw [FileEvent.call]
  rcases List.eq_nil_or_concat' q with rfl | ⟨d, name, rfl⟩
  · -- the path of the root has no name
    obtain ⟨r, hr⟩ := hroot.ok.exists_snoc
    have hsplit : strrchrSlash (root ++ joinPath []) = some (r, []) := by
      rw [joinPath_nil, List.append_nil, hr]
      exact strrchrSlash_append r List.not_mem_nil
    have hcall : b.insertPath heap.realloc (root ++ joinPath []) isDir heap.slot = some (.noPath, b, heap.slot) := by
      rw [FsBuf.insertPath, FsBuf.doInsertPath, hsplit]
      rfl
    exact ⟨_, b, by rw [hcall]; rfl, .refused h (by simp) fun hp => absurd hp.1 (by simp)⟩
  · rcases insertTarget_joinPath (t := t) hroot hnames hlen with ⟨hnew, k, hk, htarget⟩ | ⟨hnot, ret, htarget⟩
    · have hpossible : (FileEvent.insert (d ++ [name]) isDir).Possible t.kindAt := by
        refine ⟨hnew, ?_⟩
        rw [List.dropLast_concat, kindAt, hk]
        rfl
      obtain ⟨hne, hroom⟩ := hsupply hpossible
      have htarget' : insertTarget root t (hroot.path _ hnames hlen).bytes = _ := htarget
      rcases FsBuf.insertPath_ok h hne htarget' heap.realloc isDir heap.slot with
        ⟨hfail, -⟩ | ⟨-, b', off, heq, hrep⟩
      · exact absurd hfail (hroom d name k rfl hk)
      · refine ⟨.ok, b', Option.map_eq_some_iff.mpr ⟨_, heq, rfl⟩, .carriedOut hrep hpossible (funext fun p => ?_)⟩
        rw [kindAt_insert_newEntry hk ((not_mem_names_iff hk name).mpr hnew), FileEvent.apply,
          Function.update_apply]
    · have htarget' : insertTarget root t (hroot.path _ hnames hlen).bytes = _ := htarget
      have heq := FsBuf.insertPath_error h htarget' heap.realloc isDir heap.slot
      refine ⟨ret, b, Option.map_eq_some_iff.mpr ⟨_, heq, rfl⟩,
        .refused h (FsBuf.insertTarget_error_ne_ok htarget) fun hp => hnot ⟨hp.1, ?_⟩⟩
      have hparent := hp.2
      rwa [List.dropLast_concat] at hparent

/-- A removal does what its event does. -/
theorem Represents.outcome_remove (h : Represents b root t) {q : List Bytes}
    (hq : (FileEvent.remove q).Addressed root) (changes : List FsChange) :
    ∃ ret b', (FileEvent.remove q).call b root heap changes = some (ret, b') ∧
      Outcome b root t (.remove q) ret b' := by
  have hres : resolve root t (root ++ joinPath q) = _ := resolve_joinPath hq.1
  rw [FileEvent.call]
  by_cases hsome : (t.kindAt q).isSome
  · rw [if_pos hsome] at hres
    rcases FsBuf.removePath_cases h (root ++ joinPath q) changes with
      ⟨hnone, -⟩ | ⟨hnil, b', ch, heq, hrep, -⟩ | ⟨d, n, hsnoc, b', ch, heq, hrep, -⟩
    · rw [hres] at hnone
      cases hnone
    · obtain rfl : q = [] := Option.some.inj (hres.symm.trans hnil)
      refine ⟨.ok, b', by rw [heq]; rfl, .carriedOut hrep hsome (funext fun p => ?_)⟩
      rw [FileEvent.apply]
      cases p with
      | nil => simp
      | cons x xs => simp [kindAt_cons, find?]
    · obtain rfl : q = d ++ [n] := Option.some.inj (hres.symm.trans hsnoc)
      obtain ⟨e, hentry⟩ := Option.isSome_iff_exists.mp (isSome_kindAt.symm.trans hsome)
      refine ⟨.ok, b', by rw [heq]; rfl, .carriedOut hrep hsome (funext fun p => ?_)⟩
      rw [kindAt_remove h.valid hentry, FileEvent.apply]
      refine if_congr (iff_and_self.mpr ?_) rfl rfl
      rintro ⟨s, rfl⟩
      simp
  · rw [if_neg hsome] at hres
    rcases FsBuf.removePath_cases h (root ++ joinPath q) changes with
      ⟨-, heq⟩ | ⟨hnil, -⟩ | ⟨d, n, hsnoc, -⟩
    · exact ⟨.noPath, b, by rw [heq]; rfl, .refused h (by simp) hsome⟩
    · rw [hres] at hnil
      cases hnil
    · rw [hres] at hsnoc
      cases hsnoc

/-! ## Renames -/

/-- A lookup by names. -/
theorem Represents.getPathOffset_joinPath_ne_zero (h : Represents b root t) {q : List Bytes}
    (hq : ∀ x ∈ q, NameOk x) : b.getPathOffset (root ++ joinPath q) ≠ 0 ↔ (t.kindAt q).isSome := by
  rw [h.getPathOffset_ne_zero_iff, address_joinPath hq]
  simp

/-- Only the root is found at its own place. -/
theorem Represents.getPathOffset_joinPath_ne_root (h : Represents b root t) {q : List Bytes}
    (hq : ∀ x ∈ q, NameOk x) (hne : q ≠ []) : b.getPathOffset (root ++ joinPath q) ≠ dataStart := by
  have hres : resolve root t (root ++ joinPath q) = _ := resolve_joinPath hq
  rcases h.lookup_cases (root ++ joinPath q) with ⟨-, hoff⟩ | ⟨hroot, -⟩ | ⟨c, l, r, n, e, rfl, -, -, -, hoff⟩
  · rw [hoff]
    decide
  · rw [hres] at hroot
    split at hroot
    · exact absurd (Option.some.inj hroot) hne
    · cases hroot
  · have := h.entryFacts.pos
    rw [hoff]
    omega

/-- An entry has an offset of kids if something stands below it. -/
theorem Represents.getKidsOffset_joinPath (h : Represents b root t) {q : List Bytes} (hq : ∀ x ∈ q, NameOk x)
    (hne : q ≠ []) (hsome : (t.kindAt q).isSome) :
    b.getKidsOffset (b.getPathOffset (root ++ joinPath q)) = 0 ↔ ∀ x, t.kindAt (q ++ [x]) = none := by
  have hres : resolve root t (root ++ joinPath q) = _ := resolve_joinPath hq
  rw [if_pos hsome] at hres
  rcases h.lookup_cases (root ++ joinPath q) with ⟨hnone, -⟩ | ⟨hroot, -⟩ | ⟨c, l, r, n, e, rfl, hc, hl, hat, hoff⟩
  · rw [hres] at hnone
    cases hnone
  · exact absurd (Option.some.inj (hres.symm.trans hroot)) hne
  · obtain rfl : q = path c ++ [n] := Option.some.inj (hres.symm.trans hat)
    have hbelow : ∀ x, (plug c (l ++ cons n e r)).kindAt (path c ++ [n] ++ [x]) = e.kids.kindAt [x] := fun x => by
      rw [kindAt_append (entryAt_plug_cons hc e hl), entryKindAt, if_neg (List.cons_ne_nil x [])]
    rw [hoff, h.entryFacts.kidsOff]
    simp only [hbelow]
    by_cases hk : e.kids = .nil
    · rw [if_pos hk, hk]
      exact iff_of_true rfl fun x => by simp [kindAt_cons, find?]
    · have hpos := h.first_pos
      have hle := base_le_runPos b.firstNameOff (⟨l, n, r⟩ :: c)
      rw [if_neg hk]
      exact iff_of_false (by omega) fun hall => hk (eq_nil_of_kindAt hall)

/-- What the checks of `rename_path` find of a source and of a destination. -/
theorem Represents.doIsFile_joinPath (h : Represents b root t) {q : List Bytes} (hq : ∀ x ∈ q, NameOk x)
    (ht : t ≠ .nil) {isDir : Bool} (hkind : t.kindAt q = some isDir) :
    b.doIsFile (b.getPathOffset (root ++ joinPath q)) = !isDir := by
  by_cases hne : q = []
  · subst hne
    obtain rfl : isDir = true := (Option.some.inj hkind).symm
    have hoff : b.getPathOffset (root ++ joinPath []) = dataStart := by
      rw [h.getPathOffset_eq, address_joinPath hq]
      rfl
    rw [hoff, h.doIsFile_root ht]
    rfl
  · exact ((h.finds hkind) _ (address_joinPath hq)).2 hne

/-- A rename that the shape refuses does not pass the checks. -/
theorem Represents.not_renameAccepted (h : Represents b root t) (hroot : RootPath root) {src dst : List Bytes}
    (ha : (FileEvent.rename src dst).Addressed root) (hrefuses : RefusesRename t.kindAt src dst) :
    ¬ b.RenameAccepted (root ++ joinPath src) (root ++ joinPath dst) := by
  obtain ⟨⟨hsrc, -⟩, hdst, hlen⟩ := ha
  intro hacc
  have hsource := (h.getPathOffset_joinPath_ne_zero hsrc).mp hacc.source
  have hdst_ne : dst ≠ [] := by
    rintro rfl
    refine hacc.not_root ?_
    rw [h.getPathOffset_eq, address_joinPath hdst]
    rfl
  rcases hrefuses with hnone | hnil | hparent | ⟨hthere, hcase⟩
  · rw [hnone] at hsource
    cases hsource
  · exact hdst_ne hnil
  · obtain ⟨d, name, rfl⟩ := List.eq_nil_or_concat' dst |>.resolve_left hdst_ne
    obtain ⟨parent, hsplit, haddr⟩ := (hroot.destination hdst hlen).parent
    obtain ⟨parent', name', hsplit', -, hoff, -⟩ := hacc.parent
    obtain ⟨rfl, -⟩ : parent = parent' ∧ name = name' := by simpa [hsplit] using hsplit'
    obtain ⟨a, ha, hkind⟩ := (h.getPathOffset_ne_zero_iff _).mp hoff
    obtain rfl := Option.some.inj (haddr.symm.trans ha)
    rw [List.dropLast_concat] at hparent
    rw [hparent] at hkind
    cases hkind
  · have ht : t ≠ .nil := by
      rintro rfl
      obtain ⟨x, xs, rfl⟩ := List.exists_cons_of_ne_nil hdst_ne
      simp [kindAt_cons, find?] at hthere
    obtain ⟨dirS, hS⟩ := Option.isSome_iff_exists.mp hsource
    obtain ⟨dirD, hD⟩ := Option.isSome_iff_exists.mp hthere
    have hoff := (h.getPathOffset_joinPath_ne_zero hdst).mpr hthere
    have hsame := hacc.same_kind hoff
    rw [h.doIsFile_joinPath hdst ht hD, h.doIsFile_joinPath hsrc ht hS] at hsame
    rcases hcase with hkind | ⟨hdir, x, hx⟩
    · exact hkind (by rw [hS, hD, Bool.not_inj hsame])
    · obtain rfl : dirS = true := Option.some.inj (hS.symm.trans hdir)
      have hkids := hacc.no_kids hoff (h.doIsFile_joinPath hsrc ht hS)
      rw [(h.getKidsOffset_joinPath hdst hdst_ne hthere).mp hkids x] at hx
      cases hx

/-- A rename that the shape admits passes them. -/
theorem Represents.renameAccepted (h : Represents b root t) (hroot : RootPath root) {src dst : List Bytes}
    (ha : (FileEvent.rename src dst).Addressed root) (hcan : CanRename t.kindAt src dst) :
    b.RenameAccepted (root ++ joinPath src) (root ++ joinPath dst) := by
  obtain ⟨⟨hsrc, -⟩, hdst, hlen⟩ := ha
  have hsrc_ne : src ≠ [] := by
    rintro rfl
    exact hcan.outside List.nil_prefix
  have ht : t ≠ .nil := by
    rintro rfl
    obtain ⟨x, xs, rfl⟩ := List.exists_cons_of_ne_nil hsrc_ne
    have hsource := hcan.source
    simp [kindAt_cons, find?] at hsource
  obtain ⟨dirS, hS⟩ := Option.isSome_iff_exists.mp hcan.source
  have hfile := h.doIsFile_joinPath hsrc ht hS
  refine ⟨(h.getPathOffset_joinPath_ne_zero hsrc).mpr hcan.source,
    h.getPathOffset_joinPath_ne_root hdst hcan.not_root, fun hoff => ?_, fun hoff _ => ?_, ?_⟩
  · have hthere := (h.getPathOffset_joinPath_ne_zero hdst).mp hoff
    rw [hfile, h.doIsFile_joinPath hdst ht ((hcan.replaced hthere).1.trans hS)]
  · have hthere := (h.getPathOffset_joinPath_ne_zero hdst).mp hoff
    exact (h.getKidsOffset_joinPath hdst hcan.not_root hthere).mpr (hcan.replaced hthere).2
  · obtain ⟨d, name, rfl⟩ := List.eq_nil_or_concat' dst |>.resolve_left hcan.not_root
    have hdest := hroot.destination hdst hlen
    obtain ⟨parent, hsplit, haddr⟩ := hdest.parent
    have hparent := hcan.parent
    rw [List.dropLast_concat] at hparent
    refine ⟨parent, name, hsplit, hdest.nameOk.1, (h.getPathOffset_ne_zero_iff _).mpr ⟨d, haddr, ?_⟩, fun hbad => ?_⟩
    · rw [hparent]
      rfl
    · rw [hbad.1, h.doIsFile_root ht] at hbad
      cases hbad.2

theorem CanRename.not_refuses {K : Shape} {src dst : List Bytes} (h : CanRename K src dst) :
    ¬ RefusesRename K src dst := by
  rintro (hnone | hnil | hparent | ⟨hthere, hcase⟩)
  · have hsource := h.source
    rw [hnone] at hsource
    cases hsource
  · exact h.not_root hnil
  · rw [h.parent] at hparent
    cases hparent
  · obtain ⟨hkind, hempty⟩ := h.replaced hthere
    rcases hcase with hne | ⟨-, x, hx⟩
    · exact hne hkind
    · rw [hempty x] at hx
      cases hx

/-- A rename does what its event does, if it is one that the checks know. -/
theorem Represents.outcome_rename (h : Represents b root t) (hroot : RootPath root) {src dst : List Bytes}
    (ha : (FileEvent.rename src dst).Addressed root) (htame : (FileEvent.rename src dst).Tame t.kindAt)
    (hsupply : (FileEvent.rename src dst).Possible t.kindAt → (FileEvent.rename src dst).Supplied b t heap)
    (changes : List FsChange) : ∃ ret b', (FileEvent.rename src dst).call b root heap changes = some (ret, b') ∧
      Outcome b root t (.rename src dst) ret b' := by
  rw [FileEvent.call]
  rcases htame with hcan | hrefuses
  swap
  · rcases FsBuf.doRenamePath_cases b heap (root ++ joinPath src) (root ++ joinPath dst) changes with
      ⟨-, ret, hret, heq⟩ | ⟨hacc, -⟩
    · exact ⟨ret, b, by rw [FsBuf.renamePath, heq]; rfl, .refused h hret fun hcan => hcan.not_refuses hrefuses⟩
    · exact absurd hacc (h.not_renameAccepted hroot ha hrefuses)
  have hacc := h.renameAccepted hroot ha hcan
  obtain ⟨⟨hsrc, hsrcLen⟩, hdst, hdstLen⟩ := ha
  have hsrc_ne : src ≠ [] := by
    rintro rfl
    exact hcan.outside List.nil_prefix
  obtain ⟨q, n, rfl⟩ := List.eq_nil_or_concat' src |>.resolve_left hsrc_ne
  obtain ⟨d, name, rfl⟩ := List.eq_nil_or_concat' dst |>.resolve_left hcan.not_root
  obtain ⟨e, hentry⟩ := Option.isSome_iff_exists.mp (isSome_kindAt.symm.trans hcan.source)
  have hparent := hcan.parent
  rw [List.dropLast_concat] at hparent
  obtain ⟨k₀, hk₀⟩ := exists_node_of_kindAt hparent
  have hres : resolve root t (root ++ joinPath (q ++ [n])) = some (q ++ [n]) := by
    rw [resolve_joinPath hsrc, if_pos hcan.source]
  have haddr : address root (root ++ joinPath (d ++ [name])) = _ := address_joinPath hdst
  obtain ⟨hkids, hnew⟩ := hsupply hcan q n e d name rfl hentry rfl
  have hstays : e.kids ≠ .nil → t.remove q n ≠ .nil := by
    intro _
    by_cases hthere : t.entryAt (d ++ [name]) = none
    · exact (hnew hthere).1
    · -- the destination stays beside the source
      intro hnil
      have hkind := kindAt_remove h.valid hentry (d ++ [name])
      rw [hnil, if_neg hcan.outside, kindAt, kindAt] at hkind
      cases hD : t.entryAt (d ++ [name]) with
      | none => exact hthere hD
      | some e' =>
        rw [hD] at hkind
        have hnone : (Forest.nil : Tree).entryAt (d ++ [name]) = none := by
          cases d <;> rfl
        rw [hnone] at hkind
        cases hkind
  have hfits : RenameFits b root t heap (root ++ joinPath (q ++ [n])) (hroot.path _ hdst hdstLen).bytes :=
    ⟨q, n, e, d, name, hres, hentry, ⟨haddr, ⟨k₀, hk₀⟩, hcan.outside, fun hnone => (hnew hnone).2⟩,
      fun hk => ⟨hstays hk, (hkids hk).2⟩⟩
  have hgo : ¬ RenameStops b root t heap (root ++ joinPath (q ++ [n])) (root ++ joinPath (d ++ [name])) := by
    rintro (hnot | ⟨S, e', hS, he', hbelow, hmalloc⟩)
    · exact hnot hacc
    · obtain rfl : q ++ [n] = S := Option.some.inj (hres.symm.trans hS)
      obtain rfl := Option.some.inj (hentry.symm.trans he')
      rw [(hkids (hbelow.resolve_left (by simp))).1] at hmalloc
      cases hmalloc
  obtain ⟨b', ch, S, D, heq, -⟩ := hfits.moves h hgo changes
  have hcall : b.renamePath heap (hroot.path _ hsrc hsrcLen).bytes (hroot.path _ hdst hdstLen).bytes changes =
    some (.ok, b', ch) := heq
  have hmoves := (FsBuf.renamePath_moves_iff h hres hentry haddr hk₀ (fun hpre => absurd hpre hcan.outside) hcall).mpr
    ⟨fun hsame => hcan.outside (hsame ▸ List.prefix_rfl), hnew⟩
  obtain ⟨t', hrep, hkind⟩ := hmoves
  exact ⟨.ok, b', Option.map_eq_some_iff.mpr ⟨_, heq, rfl⟩, .carriedOut hrep hcan (funext hkind)⟩

/-! ## All events -/

/-- A call for an event returns, and does to the image what the event does to its shape. -/
theorem Represents.outcome (h : Represents b root t) (hroot : RootPath root) (ha : e.Addressed root)
    (htame : e.Tame t.kindAt) (hsupply : e.Possible t.kindAt → e.Supplied b t heap) (changes : List FsChange) :
    ∃ ret b', e.call b root heap changes = some (ret, b') ∧ Outcome b root t e ret b' := by
  cases e with
  | insert q isDir => exact h.outcome_insert hroot ha hsupply changes
  | remove q => exact h.outcome_remove ha changes
  | rename src dst => exact h.outcome_rename hroot ha htame hsupply changes

end DeepinAnything
