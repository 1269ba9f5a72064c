import DeepinAnything.Walkdir.Build

/-!
# Paths that the walk cuts

`walkdir` hands its own recursive call a path of at most `PATH_MAX - 2` bytes. As long as all paths
are shorter than `PATH_MAX` this cuts at most one byte, from the path of a directory that cannot
have entries; what the walk then looks at is whatever has the shorter path.
-/

namespace DeepinAnything

open ByteMem OrderedForest OrderedForest.Forest

/-! ## Paths -/

theorem entryPath_of_slash {p : Bytes} (h : p.getLast? = some slash) (entry : Bytes) :
    entryPath p entry = p ++ entry := if_pos h

theorem le_length_entryPath (p entry : Bytes) : p.length + entry.length ≤ (entryPath p entry).length := by
  unfold entryPath
  split
  · simp
  · rw [List.length_append, List.length_cons]
    omega

theorem getLast?_entryPath {p n : Bytes} (hn : NameOk n) : (entryPath p n).getLast? ≠ some slash := by
  have hlast : n.getLast? ≠ some slash := fun h => hn.2.2 (List.mem_of_getLast? h)
  have hcons : (slash :: n).getLast? = n.getLast? := by
    obtain ⟨x, xs, rfl⟩ := List.exists_cons_of_ne_nil hn.1
    simp
  unfold entryPath
  split
  · rwa [List.getLast?_append_of_ne_nil _ hn.1]
  · rwa [List.getLast?_append_of_ne_nil _ (by simp), hcons]

/-- The path of what is below an entry, from the directory of the entry. -/
theorem entryPath_cons {p n : Bytes} {q : List Bytes} (hn : NameOk n) (hq : q ≠ []) :
    entryPath p (joinPath (n :: q)) = entryPath (entryPath p n) (joinPath q) := by
  rw [entryPath.eq_def (entryPath p n), if_neg (getLast?_entryPath hn), joinPath_cons hq]
  unfold entryPath
  split <;> simp

theorem walkPath_of_le {p n : Bytes} (h : (entryPath p n).length ≤ pathMax - 2) :
    walkPath p n = entryPath p n := List.take_of_length_le h

/-! ## Two walks over the same listings -/

theorem find?_fillKids {f : Bytes → Option Tree} {r t k : Tree} {x : Bytes} (h : fillKids f r = some t)
    (hx : t.find? x = some (.node k)) : f x = some k ∧
      ∀ g u, fillKids g r = some u → ∃ k', g x = some k' ∧ u.find? x = some (.node k') := by
  induction r generalizing t with
  | nil =>
    obtain rfl : Forest.nil = t := by simpa [fillKids] using h
    simp [find?] at hx
  | leaf n r ih =>
    obtain ⟨s, hs, rfl⟩ := fillKids_leaf_eq_some.mp h
    by_cases hn : n = x
    · simp [find?, hn] at hx
    · obtain ⟨hf, hg⟩ := ih hs (by simpa [find?, hn] using hx)
      refine ⟨hf, fun g u hu => ?_⟩
      obtain ⟨s', hs', rfl⟩ := fillKids_leaf_eq_some.mp hu
      simpa [find?, hn] using hg g s' hs'
  | node n k₀ r _ ih =>
    obtain ⟨k₁, s, hk₁, hs, rfl⟩ := fillKids_node_eq_some.mp h
    by_cases hn : n = x
    · subst hn
      obtain rfl : k₁ = k := by simpa [find?] using hx
      refine ⟨hk₁, fun g u hu => ?_⟩
      obtain ⟨k', s', hk', -, rfl⟩ := fillKids_node_eq_some.mp hu
      exact ⟨k', hk', by simp [find?]⟩
    · obtain ⟨hf, hg⟩ := ih hs (by simpa [find?, hn] using hx)
      refine ⟨hf, fun g u hu => ?_⟩
      obtain ⟨k', s', -, hs', rfl⟩ := fillKids_node_eq_some.mp hu
      simpa [find?, hn] using hg g s' hs'

/-- A walk that finds the same below every directory finds the same. -/
theorem fillKids_congr {f g : Bytes → Option Tree} {r t : Tree} (h : fillKids f r = some t)
    (hv : t.Valid NameOk) (hg : ∀ n k, t.find? n = some (.node k) → g n = some k) :
    fillKids g r = some t := by
  induction r generalizing t with
  | nil => exact h
  | leaf n r ih =>
    obtain ⟨s, hs, rfl⟩ := fillKids_leaf_eq_some.mp h
    refine fillKids_leaf_eq_some.mpr ⟨s, ih hs hv.2.2 fun x k hx => hg x k ?_, rfl⟩
    have hne : n ≠ x := by
      rintro rfl
      exact absurd hx (by simp [(find?_eq_none_iff s n).mpr hv.2.1])
    simpa [find?, hne] using hx
  | node n k₀ r _ ih =>
    obtain ⟨k₁, s, hk₁, hs, rfl⟩ := fillKids_node_eq_some.mp h
    refine fillKids_node_eq_some.mpr ⟨k₁, s, hg n k₁ (by simp [find?]),
      ih hs hv.2.2.2 fun x k hx => hg x k ?_, rfl⟩
    have hne : n ≠ x := by
      rintro rfl
      exact absurd hx (by simp [(find?_eq_none_iff s n).mpr hv.2.1])
    simpa [find?, hne] using hx

namespace WalkEnv

variable {env : WalkEnv}

/-- Every entry of the tree below `p` has a path shorter than `PATH_MAX`. -/
def PathsFit (p : Bytes) (t : Tree) : Prop :=
  ∀ q e, q ≠ [] → t.entryAt q = some e → (entryPath p (joinPath q)).length < pathMax

/-- Where the path of a directory below `p` is cut, the walk finds nothing. -/
def CutsHarmless (env : WalkEnv) (p : Bytes) (t : Tree) : Prop :=
  ∀ q k, q ≠ [] → t.entryAt q = some (.node k) → (entryPath p (joinPath q)).length = pathMax - 1 →
    env.listing ((entryPath p (joinPath q)).take (pathMax - 2)) = .nil

theorem entryAt_cons_of_find? {t k : Tree} {x : Bytes} (h : t.find? x = some (.node k))
    (q : List Bytes) : t.entryAt (x :: q) = k.entryAt q := by
  simp [entryAt, h]

theorem PathsFit.kids {p x : Bytes} {t k : Tree} (h : PathsFit p t) (hx : NameOk x)
    (hfind : t.find? x = some (.node k)) : PathsFit (entryPath p x) k := by
  intro q e hq hentry
  rw [← entryPath_cons hx hq]
  exact h (x :: q) e (by simp) (by rw [entryAt_cons_of_find? hfind, hentry])

theorem CutsHarmless.kids {p x : Bytes} {t k : Tree} (h : env.CutsHarmless p t) (hx : NameOk x)
    (hfind : t.find? x = some (.node k)) : env.CutsHarmless (entryPath p x) k := by
  intro q k' hq hentry
  rw [← entryPath_cons hx hq]
  exact h (x :: q) k' (by simp) (by rw [entryAt_cons_of_find? hfind, hentry])

/-- A listing that is not empty has a first entry. -/
theorem exists_entryAt_of_ne_nil {t : Tree} (h : t ≠ .nil) : ∃ x e, t.entryAt [x] = some e := by
  cases t with
  | nil => exact absurd rfl h
  | leaf n r => exact ⟨n, .leaf, by simp [entryAt, find?]⟩
  | node n k r => exact ⟨n, .node k, by simp [entryAt, find?]⟩

/-- A directory with the longest path has no entries. -/
theorem PathsFit.kids_eq_nil {p x : Bytes} {t k : Tree} (h : PathsFit p t) (hv : t.Valid NameOk)
    (hfind : t.find? x = some (.node k)) (hlen : pathMax - 1 ≤ (entryPath p x).length) : k = .nil := by
  by_contra hne
  obtain ⟨y, e, hy⟩ := exists_entryAt_of_ne_nil hne
  have hentry : t.entryAt [x, y] = some e := by rw [entryAt_cons_of_find? hfind, hy]
  have hnames := hv.of_entryAt hentry
  have hx := hnames x (by simp)
  have hyne := (hnames y (by simp)).1
  have hlt := h [x, y] e (by simp) hentry
  rw [entryPath_cons hx (by simp), joinPath_singleton] at hlt
  have hle := le_length_entryPath (entryPath p x) y
  have hpos := List.length_pos_of_ne_nil hyne
  have hmax : pathMax = 4096 := rfl
  omega

/-- The walk on cut paths finds the tree when the cuts do no harm. -/
theorem walkTree_of_cutsHarmless (hsane : env.Sane) {fuel : ℕ} {p : Bytes} {t : Tree}
    (h : env.walkTree entryPath fuel p = some t) (hfit : PathsFit p t) (hcut : env.CutsHarmless p t) :
    env.walkTree walkPath fuel p = some t := by
  induction fuel generalizing p t with
  | zero => simp [walkTree] at h
  | succ fuel ih =>
    have hv := valid_walkTree hsane h
    rw [walkTree] at h ⊢
    refine fillKids_congr h hv fun x k hfind => ?_
    have hentry : t.entryAt [x] = some (.node k) := by rw [entryAt_cons_of_find? hfind]; rfl
    have hx := hv.of_entryAt hentry x (by simp)
    have hsub := (find?_fillKids h hfind).1
    have hlt := hfit [x] (.node k) (by simp) hentry
    rw [joinPath_singleton] at hlt
    by_cases hshort : (entryPath p x).length ≤ pathMax - 2
    · rw [walkPath_of_le hshort]
      exact ih hsub (hfit.kids hx hfind) (hcut.kids hx hfind)
    · -- the path is cut: the directory has no entries, and none are found
      have hlen : (entryPath p x).length = pathMax - 1 := by
        have hmax : pathMax = 4096 := rfl
        omega
      obtain rfl := hfit.kids_eq_nil hv hfind (by omega)
      have hnone := hcut [x] .nil (by simp) hentry (by rwa [joinPath_singleton])
      rw [joinPath_singleton] at hnone
      obtain ⟨fuel, rfl⟩ : ∃ k, fuel = k + 1 := by
        cases fuel with
        | zero => simp [walkTree] at hsub
        | succ fuel => exact ⟨fuel, rfl⟩
      rw [walkTree, show env.listing (walkPath p x) = .nil from hnone, fillKids]

/-- When the walk on cut paths finds a tree with the same entries, the cuts did no harm. -/
theorem cutsHarmless_of_kindAt (hsane : env.Sane) {fuel fuel' : ℕ} {p : Bytes} {t w : Tree}
    (h : env.walkTree entryPath fuel p = some t) (hw : env.walkTree walkPath fuel' p = some w)
    (hfit : PathsFit p t) (hkind : ∀ q, t.kindAt q = w.kindAt q) : env.CutsHarmless p t := by
  intro q k hq hentry hlen
  induction q generalizing p t w fuel fuel' with
  | nil => exact absurd rfl hq
  | cons x xs ih =>
    have hv := valid_walkTree hsane h
    have hx := hv.of_entryAt hentry x (by simp)
    obtain ⟨fuel, rfl⟩ : ∃ k, fuel = k + 1 := by
      cases fuel with
      | zero => simp [walkTree] at h
      | succ fuel => exact ⟨fuel, rfl⟩
    obtain ⟨fuel', rfl⟩ : ∃ k, fuel' = k + 1 := by
      cases fuel' with
      | zero => simp [walkTree] at hw
      | succ fuel' => exact ⟨fuel', rfl⟩
    rw [walkTree] at h hw
    obtain ⟨k₁, hfind⟩ : ∃ k₁, t.find? x = some (.node k₁) := by
      simp only [entryAt] at hentry
      cases hfind : t.find? x with
      | none => simp [hfind] at hentry
      | some e =>
        cases e with
        | leaf => by_cases hxs : xs = [] <;> simp [hfind, hxs] at hentry
        | node k₁ => exact ⟨k₁, rfl⟩
    obtain ⟨hsub, hother⟩ := find?_fillKids h hfind
    obtain ⟨k₂, hsub', hfind'⟩ := hother _ _ hw
    rw [entryAt_cons_of_find? hfind] at hentry
    have hkind' : ∀ q, k₁.kindAt q = k₂.kindAt q := by
      intro q
      by_cases hq : q = []
      · simp [hq]
      · have := hkind (x :: q)
        simpa [kindAt_cons, hfind, hfind', hq, Entry.kids] using this
    by_cases hxs : xs = []
    · subst hxs
      rw [joinPath_singleton] at hlen ⊢
      obtain rfl := hfit.kids_eq_nil hv hfind (by omega)
      by_contra hne
      obtain ⟨fuel', rfl⟩ : ∃ k, fuel' = k + 1 := by
        cases fuel' with
        | zero => simp [walkTree] at hsub'
        | succ fuel' => exact ⟨fuel', rfl⟩
      rw [walkTree] at hsub'
      have hk₂ : k₂ ≠ .nil := by
        rintro rfl
        exact hne (entriesSize_eq_zero_iff.mp (entriesSize_fillKids hsub').symm)
      obtain ⟨y, e, hy⟩ := exists_entryAt_of_ne_nil hk₂
      have hy' := hkind' [y]
      rw [kindAt, kindAt, hy] at hy'
      simp [entryAt, find?] at hy'
    · rw [entryPath_cons hx hxs] at hlen ⊢
      have hshort : (entryPath p x).length ≤ pathMax - 2 := by
        have hle := le_length_entryPath (entryPath p x) (joinPath xs)
        have hnames := (valid_walkTree hsane hsub).of_entryAt hentry
        have hpos := List.length_pos_of_ne_nil (joinPath_ne_nil hnames hxs)
        omega
      rw [walkPath_of_le hshort] at hsub'
      exact ih hsub hsub' (hfit.kids hx hfind) hkind' hxs hentry hlen

/-! ## `build_fstree` -/

/-- Without allocation failures or cancellation `build_fstree` on a fresh buffer ends with the image
of the directory tree exactly when no cut path leads to entries. -/
theorem buildFstree_represents_iff (hsane : env.Sane) (hpcf : ∀ f d n e, env.pcf f d n e = false)
    {fresh : Option Mem} {capacity : ℕ} {root : Bytes} {b : FsBuf}
    (hnew : newFsBuf fresh capacity root = some b) (hzero : (0 : UInt8) ∉ root) {depth : ℕ} {t : Tree}
    (htree : env.walkTree entryPath depth root = some t) (hfit : PathsFit root t)
    (halloc : ∀ fuel, (env.buildFstree fuel b).2.2.failed = false) :
    (∃ fuel b' pr', env.buildFstree fuel b = (some false, b', pr') ∧ Represents b' root t) ↔
      env.CutsHarmless root t := by
  have h := represents_newFsBuf hnew hzero
  constructor
  · rintro ⟨fuel, b', pr', hbuild, hrep⟩
    rcases buildFstree_spec hsane hpcf h fuel hbuild with
      ⟨hnone, -⟩ | ⟨w, hw, -, -, hrep'⟩ | ⟨hfailed, -⟩
    · simp at hnone
    · exact cutsHarmless_of_kindAt hsane htree hw hfit (hrep.kindAt_unique hrep')
    · have hok := halloc fuel
      rw [hbuild] at hok
      exact absurd (hok.symm.trans hfailed) (by simp)
  · intro hcut
    have hw := walkTree_of_cutsHarmless hsane htree hfit hcut
    rcases buildFstree_spec hsane hpcf h depth rfl with
      ⟨-, hnone, -⟩ | ⟨w, hw', hc, -, hrep⟩ | ⟨hfailed, -⟩
    · rw [hw] at hnone
      simp at hnone
    · obtain rfl : t = w := Option.some.inj (hw.symm.trans hw')
      exact ⟨depth, _, _, Prod.ext hc rfl, hrep⟩
    · exact absurd ((halloc depth).symm.trans hfailed) (by simp)

/-! ## A cut path that leads to entries -/

/-- A directory `aa` without entries beside a link `a` to a directory with a file `f`. -/
def linkEnv (root : Bytes) : WalkEnv where
  shouldSkipPath _ := false
  opendir p :=
    if p = root then some [⟨[97, 97], .dir⟩, ⟨[97], .lnk⟩]
    else if p = root ++ [97] then some [⟨[102], .reg⟩]
    else if p = root ++ [97, 97] then some []
    else none
  pcf _ _ _ _ := false
  realloc _ := false

theorem linkEnv_sane (root : Bytes) : (linkEnv root).Sane := by
  intro p des h
  simp only [linkEnv] at h
  split at h
  · obtain rfl := Option.some.inj h
    decide
  split at h
  · obtain rfl := Option.some.inj h
    decide
  split at h
  · obtain rfl := Option.some.inj h
    decide
  · simp at h

theorem linkEnv_listing (root : Bytes) :
    (linkEnv root).listing root = .node [97, 97] .nil (.leaf [97] .nil) ∧
    (linkEnv root).listing (root ++ [97]) = .leaf [102] .nil ∧
    (linkEnv root).listing (root ++ [97, 97]) = .nil := by
  refine ⟨?_, ?_, ?_⟩ <;> simp [listing, linkEnv, listTree, Dirent.isSkipped, newEntry]

theorem linkEnv_walkTree {root : Bytes} (hlast : root.getLast? = some slash) (fuel : ℕ) :
    (linkEnv root).walkTree entryPath (fuel + 2) root = some (.node [97, 97] .nil (.leaf [97] .nil)) := by
  obtain ⟨hroot, -, hdir⟩ := linkEnv_listing root
  simp [walkTree, hroot, entryPath_of_slash hlast, hdir, fillKids]

theorem length_linkTree_path {q : List Bytes} {e : Entry Bytes}
    (h : entryAt (.node [97, 97] .nil (.leaf [97] .nil)) q = some e) : (joinPath q).length ≤ 2 := by
  cases q with
  | nil => simp
  | cons x xs =>
    by_cases hx : [97, 97] = x
    · cases xs with
      | nil => simp [← hx]
      | cons y ys => simp [entryAt, find?, ← hx] at h
    · by_cases hx' : [97] = x
      · cases xs with
        | nil => simp [← hx']
        | cons y ys => simp [entryAt, find?, ← hx'] at h
      · simp [entryAt, find?, hx, hx'] at h

theorem linkEnv_pathsFit {root : Bytes} (hlast : root.getLast? = some slash)
    (hlen : root.length + 2 < pathMax) : PathsFit root (.node [97, 97] .nil (.leaf [97] .nil)) := by
  intro q e hq hentry
  have hle := length_linkTree_path hentry
  rw [entryPath_of_slash hlast, List.length_append]
  omega

/-- With a root path of 4093 bytes the path of `aa` is cut to that of the link. -/
theorem linkEnv_walkTree_cut {root : Bytes} (hlast : root.getLast? = some slash)
    (hlen : root.length = pathMax - 3) (fuel : ℕ) :
    (linkEnv root).walkTree walkPath (fuel + 2) root =
      some (.node [97, 97] (.leaf [102] .nil) (.leaf [97] .nil)) := by
  obtain ⟨hroot, hlink, -⟩ := linkEnv_listing root
  have hcut : walkPath root [97, 97] = root ++ [97] := by
    rw [walkPath, entryPath_of_slash hlast, List.take_append, hlen,
      List.take_of_length_le (by rw [hlen]; decide)]
    rfl
  simp [walkTree, hroot, hcut, hlink, fillKids]

/-- The path `/a/a/…/a/` of the given depth. -/
def nestedRoot : ℕ → Bytes
  | 0 => [slash]
  | n + 1 => slash :: 97 :: nestedRoot n

theorem nestedRoot_ok (n : ℕ) : RootOk (nestedRoot n) ∧ (nestedRoot n).length = 2 * n + 1 := by
  induction n with
  | zero => exact ⟨⟨rfl, rfl, by decide⟩, rfl⟩
  | succ n ih =>
    obtain ⟨x, xs, hx⟩ : ∃ x xs, nestedRoot n = x :: xs := by cases n <;> exact ⟨_, _, rfl⟩
    obtain ⟨⟨-, hlast, hzero⟩, hlen⟩ := ih
    refine ⟨⟨rfl, ?_, ?_⟩, by simp only [nestedRoot, List.length_cons, hlen]; omega⟩
    · rw [hx] at hlast
      simpa [nestedRoot, hx] using hlast
    · simpa [nestedRoot, slash] using hzero

/-- Below a root path of 4093 bytes the file `f` turns up in the directory `aa`, which is empty. -/
theorem buildFstree_cut_path : ∃ b,
    newFsBuf (some ⟨fun _ => 0⟩) (2 ^ 21) (nestedRoot 2046) = some b ∧
    (linkEnv (nestedRoot 2046)).Sane ∧ (∀ f d n e, (linkEnv (nestedRoot 2046)).pcf f d n e = false) ∧
    (linkEnv (nestedRoot 2046)).walkTree entryPath 2 (nestedRoot 2046) =
      some (.node [97, 97] .nil (.leaf [97] .nil)) ∧
    PathsFit (nestedRoot 2046) (.node [97, 97] .nil (.leaf [97] .nil)) ∧
    (∀ fuel, ((linkEnv (nestedRoot 2046)).buildFstree fuel b).2.2.failed = false) ∧
    ¬ ∃ fuel b' pr', (linkEnv (nestedRoot 2046)).buildFstree fuel b = (some false, b', pr') ∧
      Represents b' (nestedRoot 2046) (.node [97, 97] .nil (.leaf [97] .nil)) := by
  obtain ⟨hok, hlen⟩ := nestedRoot_ok 2046
  generalize nestedRoot 2046 = root at hok hlen
  have hpcf : ∀ f d n e, (linkEnv root).pcf f d n e = false := fun _ _ _ _ => rfl
  have hsane := linkEnv_sane root
  obtain ⟨b, hnew, hcapacity⟩ : ∃ b, newFsBuf (some ⟨fun _ => 0⟩) (2 ^ 21) root = some b ∧
      b.capacity = 2 ^ 21 := by
    rw [newFsBuf, if_neg (by decide), if_neg (by rw [hlen]; decide),
      if_neg (by simp [hok.head, hok.last])]
    exact ⟨_, rfl, rfl⟩
  have h := represents_newFsBuf hnew hok.zero
  have hcut := linkEnv_walkTree_cut hok.last hlen
  have hroom : b.tail + treeSize (.node [97, 97] (.leaf [102] .nil) (.leaf [97] .nil)) < b.capacity := by
    rw [h.tail_eq, h.first_eq, hlen, hcapacity]
    decide
  have halloc := buildFstree_of_room hsane hpcf h (hcut 0) hroom
  refine ⟨b, hnew, hsane, hpcf, linkEnv_walkTree hok.last 0,
    linkEnv_pathsFit hok.last (by rw [hlen]; decide), halloc, ?_⟩
  rintro ⟨fuel, b', pr', hbuild, hrep⟩
  rcases buildFstree_spec hsane hpcf h fuel hbuild with
    ⟨hnone, -⟩ | ⟨w, hw, -, -, hrep'⟩ | ⟨hfailed, -⟩
  · simp at hnone
  · have hw' := walkTree_mono (le_max_left fuel 2) hw
    have hcut' := walkTree_mono (le_max_right fuel 2) (hcut 0)
    obtain rfl := Option.some.inj (hw'.symm.trans hcut')
    exact absurd (hrep.kindAt_unique hrep' [[97, 97], [102]]) (by decide)
  · have hok := halloc fuel
    rw [hbuild] at hok
    exact absurd (hok.symm.trans hfailed) (by simp)

/-- Below a short root path the same file system is indexed as it is. -/
theorem buildFstree_represents_iff_root : ∃ b fuel b' pr',
    newFsBuf (some ⟨fun _ => 0⟩) (2 ^ 21) [slash] = some b ∧
    (linkEnv [slash]).buildFstree fuel b = (some false, b', pr') ∧
    Represents b' [slash] (.node [97, 97] .nil (.leaf [97] .nil)) := by
  have hpcf : ∀ f d n e, (linkEnv [slash]).pcf f d n e = false := fun _ _ _ _ => rfl
  have hsane := linkEnv_sane [slash]
  have hlast : [slash].getLast? = some slash := rfl
  have htree := linkEnv_walkTree hlast 0
  have hfit := linkEnv_pathsFit hlast (by decide)
  have hshort : (linkEnv [slash]).CutsHarmless [slash] (.node [97, 97] .nil (.leaf [97] .nil)) := by
    intro q k hq hentry hlen
    have hle := length_linkTree_path hentry
    rw [entryPath_of_slash rfl, List.length_append, List.length_singleton] at hlen
    have hmax : pathMax = 4096 := rfl
    omega
  obtain ⟨b, hnew, hcapacity⟩ : ∃ b, newFsBuf (some ⟨fun _ => 0⟩) (2 ^ 21) [slash] = some b ∧
      b.capacity = 2 ^ 21 := ⟨_, rfl, rfl⟩
  have h := represents_newFsBuf hnew (by decide)
  have hroom : b.tail + treeSize (.node [97, 97] .nil (.leaf [97] .nil)) < b.capacity := by
    rw [h.tail_eq, h.first_eq, hcapacity]
    decide
  have halloc := buildFstree_of_room hsane hpcf h
    (walkTree_of_cutsHarmless hsane htree hfit hshort) hroom
  obtain ⟨fuel, b', pr', hbuild, hrep⟩ :=
    (buildFstree_represents_iff hsane hpcf hnew (by decide) htree hfit halloc).mpr hshort
  exact ⟨b, fuel, b', pr', hnew, hbuild, hrep⟩

end WalkEnv

end DeepinAnything
