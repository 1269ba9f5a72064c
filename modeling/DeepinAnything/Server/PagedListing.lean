import DeepinAnything.Server.PagedSearch

/-!
# The pages are the listing (`lftmanager.cpp`)

Paged through, a search gives the entries that the caller is to get, each once and in the order of the index,
unless an entry that its searches come upon has a path that does not fit into `tmp_path`.
-/

namespace DeepinAnything.Server

open ByteMem OrderedForest OrderedForest.Forest Paging

variable {b : FsBuf} {root : Bytes} {t : Tree} {q : List Bytes} {p : Bytes}

/-- The entry stands below the directory, where the pages come upon it. -/
def MetByPages (b : FsBuf) (t : Tree) (q : List Bytes) (p query : Bytes) (targets : List Bytes) (size : ℕ)
    (q' : List Bytes) : Prop :=
  q' ≠ [] ∧ (t.entryAt (q ++ q')).isSome ∧ ∃ off start stop, b.getPathRange p = some (off, start, stop) ∧
    start ≠ 0 ∧ offAt b.firstNameOff t (q ++ q') ∈ lookedAt b t q query targets start stop size (b.tail + 1)

/-- The pages hold no more than `size` results each, and together the paths of the entries that the caller is
to get, in the order of their offsets. -/
structure PagesOk (env : SearchEnv) (b : FsBuf) (root : Bytes) (t : Tree) (q : List Bytes) (query : Bytes)
    (targets : List Bytes) (size : ℕ) (pages : List (List QString)) : Prop where
  length_le : ∀ page ∈ pages, page.length ≤ size
  flatten_eq : ∃ qs : List (List Bytes),
    qs.Pairwise (fun r s => offAt b.firstNameOff t (q ++ r) < offAt b.firstNameOff t (q ++ s)) ∧
    (∀ q', q' ∈ qs ↔ Listed t q query targets q') ∧
    pages.flatten = qs.map fun q' => env.fromLocal8Bit (root ++ joinPath (q ++ q'))

/-- A directory that is found has a range, which starts at 0 if nothing is below it. -/
theorem exists_range (h : Represents b root t) {k : Tree} (hres : resolve root t p = some q)
    (hdir : t.entryAt q = some (.node k)) :
    ∃ off start stop, b.getPathRange p = some (off, start, stop) ∧ (start = 0 → k = .nil) := by
  rcases h.lookup_cases p with ⟨hnone, -⟩ | ⟨hroot, hoff⟩ | ⟨c, l, r, n, e, rfl, hc, hn, hentry, hoff⟩
  · rw [hnone] at hres
    cases hres
  · refine ⟨_, _, _, Represents.getPathRange_root hoff, fun h0 => ?_⟩
    have := h.first_pos
    omega
  · obtain rfl : path c ++ [n] = q := Option.some.inj (hentry.symm.trans hres)
    obtain rfl : e = .node k := Option.some.inj ((entryAt_plug_cons hc e hn).symm.trans hdir)
    have hkids := h.entryFacts.kidsOff
    refine ⟨_, _, _, h.getPathRange_entry hoff, fun h0 => by_contra fun hk => ?_⟩
    rw [h0, Entry.kids, if_neg hk] at hkids
    have := base_le_runPos b.firstNameOff (⟨l, n, r⟩ :: c)
    have := h.first_pos
    omega

/-- More pages change nothing once there is an end. -/
theorem pagedSearch_mono {env : SearchEnv} {opath keyword : QString} {rules : List Rule} {n n' s e : ℕ}
    (hle : n ≤ n') (hend : env.pagedSearch opath keyword rules n s e ≠ .error .endless) :
    env.pagedSearch opath keyword rules n' s e = env.pagedSearch opath keyword rules n s e := by
  induction n generalizing n' s e with
  | zero => exact absurd rfl hend
  | succ n ih =>
    obtain ⟨m, rfl⟩ : ∃ m, n' = m + 1 := ⟨n' - 1, by omega⟩
    rw [SearchEnv.pagedSearch] at hend ⊢
    rw [SearchEnv.pagedSearch]
    cases hreply : env.parallelsearch opath s e keyword rules with
    | error fault => rfl
    | ok reply =>
      rw [hreply] at hend
      obtain ⟨list, offsets⟩ := reply
      cases list with
      | nil => rfl
      | cons x xs =>
        cases offsets with
        | none => rfl
        | some offsets =>
          obtain ⟨s', e'⟩ := offsets
          change (env.pagedSearch opath keyword rules n s' e' >>= fun rest =>
            Except.ok ((x :: xs) :: rest)) ≠ _ at hend
          change (env.pagedSearch opath keyword rules m s' e' >>= fun rest => Except.ok ((x :: xs) :: rest)) =
            (env.pagedSearch opath keyword rules n s' e' >>= fun rest => Except.ok ((x :: xs) :: rest))
          rw [ih (by omega) fun h0 => hend (by rw [h0]; rfl)]

/-- The entries at the offsets of the listing. -/
theorem exists_listed {c : List (Frame Bytes)} {k : Tree} (h : Represents b root (plug c k)) (query : Bytes)
    (targets : List Bytes) : ∃ qs : List (List Bytes),
      qs.map (fun q' => offAt b.firstNameOff (plug c k) (path c ++ q')) =
        listing b (plug c k) (path c) query targets ∧
      ∀ q', q' ∈ qs ↔ Listed (plug c k) (path c) query targets q' := by
  have hall := fun off (hoff : off ∈ listing b (plug c k) (path c) query targets) =>
    (mem_listing h query targets).mp hoff
  choose! address haddress using hall
  refine ⟨(listing b (plug c k) (path c) query targets).map address, ?_, fun q' => ?_⟩
  · rw [List.map_map]
    exact (List.map_congr_left fun off hoff => (haddress off hoff).2).trans (List.map_id _)
  · constructor
    · intro hq'
      obtain ⟨off, hoff, rfl⟩ := List.mem_map.mp hq'
      exact (haddress off hoff).1
    · intro hlisted
      have hoff := (mem_listing h query targets).mpr ⟨q', hlisted, rfl⟩
      obtain ⟨hsame, heq⟩ := haddress _ hoff
      obtain ⟨e, he⟩ := Option.isSome_iff_exists.mp hlisted.entry
      obtain ⟨e', he'⟩ := Option.isSome_iff_exists.mp hsame.entry
      have := h.offAt_inj (by simp [hsame.ne_nil]) (by simp [hlisted.ne_nil]) he' he heq
      exact List.mem_map.mpr ⟨_, hoff, List.append_cancel_left this⟩

/-- What the caller is to get is from the start of the range on. -/
theorem filter_listing {c : List (Frame Bytes)} {k : Tree} (h : Represents b root (plug c k)) (query : Bytes)
    (targets : List Bytes) : (listing b (plug c k) (path c) query targets).filter (runPos b.firstNameOff c ≤ ·) =
      listing b (plug c k) (path c) query targets :=
  List.filter_eq_self.mpr fun o ho => by
    obtain ⟨q', hlisted, rfl⟩ := (mem_listing h query targets).mp ho
    obtain ⟨x, hx, hxoff⟩ := exists_item_below h hlisted.ne_nil hlisted.entry
    exact decide_eq_true (hxoff ▸ (h.searchable_plug.1.chain.range hx).1)

/-- The pages hold the listing. -/
theorem flatten_pages_eq {c : List (Frame Bytes)} {k : Tree} (h : Represents b root (plug c k)) (query : Bytes)
    (targets : List Bytes) {size : ℕ} (hsize : 0 < size) {found : List ℕ × List (List ℕ)}
    (hpages : pages (metFrom b (plug c k) (path c) query targets) (accepted b (plug c k) (path c) query targets)
      b.nextName size (runPos b.firstNameOff c + treeSize k) (b.tail + 1) (b.tail + 1)
      (runPos b.firstNameOff c) = found) :
    found.2.flatten = listing b (plug c k) (path c) query targets ∧ (∀ page ∈ found.2, page.length ≤ size) ∧
      found.1.filter (accepted b (plug c k) (path c) query targets) =
        listing b (plug c k) (path c) query targets := by
  subst hpages
  have hlength : (listing b (plug c k) (path c) query targets).length < b.tail + 1 :=
    Nat.lt_succ_of_le (length_offsets_le _)
  obtain ⟨hflat, hsizes⟩ := (source h query targets).pages_spec hsize
    (by rw [List.length_range]; omega : (List.range b.tail).length < b.tail + 1)
    h.searchable_plug.1.chain.start_eq (by rw [filter_listing h]; exact hlength)
  rw [filter_listing h] at hflat
  exact ⟨hflat, hsizes, (flatten_pages _ _ _ _ _ _ _ _).symm.trans hflat⟩

/-- The pages come upon all that the caller is to get. -/
theorem metByPages_of_listed (h : Represents b root t) {k : Tree} (hres : resolve root t p = some q)
    (hdir : t.entryAt q = some (.node k)) {query : Bytes} {targets : List Bytes} {size : ℕ} (hsize : 0 < size)
    {q' : List Bytes} (hlisted : Listed t q query targets q') : MetByPages b t q p query targets size q' := by
  obtain ⟨off, start, stop, hrange, hempty⟩ := exists_range h hres hdir
  have hstart : start ≠ 0 := fun h0 => by
    obtain rfl := hempty h0
    obtain ⟨k, hk, hbelow⟩ := exists_node_of_entryAt_append hlisted.ne_nil hlisted.entry
    obtain rfl : .nil = k := Entry.node.inj (Option.some.inj (hdir.symm.trans hk))
    obtain ⟨x, xs, rfl⟩ := List.exists_cons_of_ne_nil hlisted.ne_nil
    cases hbelow
  obtain ⟨c, rfl, rfl, rfl, rfl⟩ := h.range_eq hres hdir hrange hstart
  have hmem := (mem_listing h query targets).mpr ⟨q', hlisted, rfl⟩
  rw [← (flatten_pages_eq h query targets hsize rfl).2.2] at hmem
  exact ⟨hlisted.ne_nil, hlisted.entry, off, _, _, hrange, hstart, List.mem_of_mem_filter hmem⟩

section Pages

variable {k : Tree} (h : Represents b root t) {env : SearchEnv} {opath searched : QString}
  (hs : env.Serves opath searched b p) (hp : p.getLast? ≠ some slash) (hres : resolve root t p = some q)
  (hdir : t.entryAt q = some (.node k)) {targets : List QString} (htargets : TargetsOk targets) {maxCount : ℤ}
  (hmax : -2 ^ 31 ≤ maxCount ∧ maxCount < 2 ^ 31) (keyword : QString)
include h hs hp hres hdir htargets hmax

/-- With as many pages as there is room for entries the paging ends, with the listing unless a path does not
fit. -/
theorem exists_pagedSearch_eq : ∃ pages,
    env.pagedSearch opath keyword (pageRules maxCount targets) (b.tail + 1) 0 0 =
      checked (∃ q', MetByPages b t q p (env.query keyword) (targets.map toLatin1) (pageSize maxCount) q' ∧
        pathMax ≤ (root ++ joinPath (q ++ q')).length) pages ∧
    ((∀ q', MetByPages b t q p (env.query keyword) (targets.map toLatin1) (pageSize maxCount) q' →
        (root ++ joinPath (q ++ q')).length < pathMax) →
      PagesOk env b root t q (env.query keyword) (targets.map toLatin1) (pageSize maxCount) pages) := by
  obtain ⟨off, start, stop, hrange, hempty⟩ := exists_range h hres hdir
  by_cases hstart : start = 0
  · -- nothing is below the directory
    subst hstart
    obtain rfl := hempty rfl
    refine ⟨[], ?_, fun _ => ⟨by simp, [], .nil, fun q' => ?_, rfl⟩⟩
    · rw [SearchEnv.pagedSearch, parallelsearch_empty hs hmax ((prepareBuf_first hs hrange).trans (if_pos rfl)),
        checked_of_not]
      · rfl
      · rintro ⟨q', ⟨-, -, off', start', stop', hrange', hne, -⟩, -⟩
        rw [hrange] at hrange'
        simp only [Option.some.injEq, Prod.mk.injEq] at hrange'
        exact hne hrange'.2.1.symm
    · refine iff_of_false List.not_mem_nil fun hlisted => ?_
      obtain ⟨k, hk, hbelow⟩ := exists_node_of_entryAt_append hlisted.ne_nil hlisted.entry
      obtain rfl : .nil = k := Entry.node.inj (Option.some.inj (hdir.symm.trans hk))
      obtain ⟨x, xs, rfl⟩ := List.exists_cons_of_ne_nil hlisted.ne_nil
      cases hbelow
  obtain ⟨c, rfl, rfl, rfl, rfl⟩ := h.range_eq hres hdir hrange hstart
  obtain ⟨hsearch, htail⟩ := h.searchable_plug
  have hbegin : Start b c k (runPos b.firstNameOff c) := hsearch.chain.start_eq
  have hprep : env.prepareBuf 0 0 searched =
      .ok (runPos b.firstNameOff c, runPos b.firstNameOff c + treeSize k, b, searched) := by
    rw [prepareBuf_first hs hrange, if_neg hstart]
  have hlength : (listing b (plug c k) (path c) (env.query keyword) (targets.map toLatin1)).length < b.tail + 1 :=
    Nat.lt_succ_of_le (length_offsets_le _)
  have hmet : ∀ q', MetByPages b (plug c k) (path c) p (env.query keyword) (targets.map toLatin1)
      (pageSize maxCount) q' ↔ q' ≠ [] ∧ ((plug c k).entryAt (path c ++ q')).isSome ∧
        offAt b.firstNameOff (plug c k) (path c ++ q') ∈ lookedAt b (plug c k) (path c) (env.query keyword)
          (targets.map toLatin1) (runPos b.firstNameOff c) (runPos b.firstNameOff c + treeSize k)
          (pageSize maxCount) (b.tail + 1) := fun q' => by
    constructor
    · rintro ⟨hne, hentry, off', start', stop', hrange', -, hmem⟩
      rw [hrange] at hrange'
      simp only [Option.some.injEq, Prod.mk.injEq] at hrange'
      obtain ⟨-, rfl, rfl⟩ := hrange'
      exact ⟨hne, hentry, hmem⟩
    · rintro ⟨hne, hentry, hmem⟩
      exact ⟨hne, hentry, off, _, _, hrange, hstart, hmem⟩
  have hbad : (∃ o ∈ lookedAt b (plug c k) (path c) (env.query keyword) (targets.map toLatin1)
      (runPos b.firstNameOff c) (runPos b.firstNameOff c + treeSize k) (pageSize maxCount) (b.tail + 1),
        ¬ Short b root (plug c k) (path c) o) ↔
      ∃ q', MetByPages b (plug c k) (path c) p (env.query keyword) (targets.map toLatin1) (pageSize maxCount) q' ∧
        pathMax ≤ (root ++ joinPath (path c ++ q')).length := by
    simp only [hmet, Short, not_forall, not_lt]
    constructor
    · rintro ⟨o, ho, q', hne, hentry, rfl, hlong⟩
      exact ⟨q', ⟨hne, hentry, ho⟩, hlong⟩
    · rintro ⟨q', ⟨hne, hentry, ho⟩, hlong⟩
      exact ⟨_, ho, q', hne, hentry, rfl, hlong⟩
  refine ⟨_, (pagedSearch_eq h hs hp hres htargets hmax hbegin ⟨Nat.zero_le _, Nat.zero_le _⟩ hprep
    (by rw [filter_listing h]; exact hlength)).trans (by rw [hbad]), fun hshort => ?_⟩
  obtain ⟨hflat, hsizes, -⟩ := flatten_pages_eq h (env.query keyword) (targets.map toLatin1)
    (pageSize_pos maxCount) rfl
  obtain ⟨qs, hqs, hlisted⟩ := exists_listed h (env.query keyword) (targets.map toLatin1)
  refine ⟨fun page hpage => ?_, qs, ?_, hlisted, ?_⟩
  · obtain ⟨offs, hoffs, rfl⟩ := List.mem_map.mp hpage
    rw [List.length_map]
    exact hsizes offs hoffs
  · rw [← List.pairwise_map, hqs]
    exact offsets_sorted _
  · rw [← List.map_flatten, hflat, ← hqs, List.map_map]
    refine List.map_congr_left fun q' hq' => ?_
    have hq' := (hlisted q').mp hq'
    have hfits := hshort q' (metByPages_of_listed h hres hdir (pageSize_pos maxCount) hq')
    rw [Function.comp_apply, SearchEnv.nameOf, namePath_eq h (by simp [hq'.ne_nil]) hq'.entry hfits]
    rfl

/-- Paging through a search gives the listing, in pages that are not too long, if and only if every entry that
the pages come upon has a path that fits into `tmp_path`. -/
theorem pagedSearch_iff :
    (∃ n pages, env.pagedSearch opath keyword (pageRules maxCount targets) n 0 0 = .ok pages ∧
      PagesOk env b root t q (env.query keyword) (targets.map toLatin1) (pageSize maxCount) pages) ↔
    ∀ q', MetByPages b t q p (env.query keyword) (targets.map toLatin1) (pageSize maxCount) q' →
      (root ++ joinPath (q ++ q')).length < pathMax := by
  obtain ⟨pages, heq, hok⟩ := exists_pagedSearch_eq h hs hp hres hdir htargets hmax keyword
  constructor
  · rintro ⟨n, pages', hpages, -⟩ q' hmet
    by_contra hlong
    rw [checked_of ⟨q', hmet, Nat.le_of_not_lt hlong⟩] at heq
    have hmore := pagedSearch_mono (Nat.le_max_left n (b.tail + 1)) (by rw [hpages]; simp)
    rw [pagedSearch_mono (Nat.le_max_right n (b.tail + 1)) (by rw [heq]; simp), heq, hpages] at hmore
    cases hmore
  · intro hshort
    refine ⟨b.tail + 1, pages, heq.trans (checked_of_not ?_ _), hok hshort⟩
    rintro ⟨q', hmet, hlong⟩
    exact absurd (hshort q' hmet) (Nat.not_lt_of_le hlong)

end Pages

/-! ## A directory and a path that is too long -/

/-- A locale with ASCII alone, and a manager with one buffer. -/
def sampleEnv (b : FsBuf) : SearchEnv where
  fromLocal8Bit := List.map fun c => if c.toNat < 128 then AsciiDecoder.char c else '\uFFFD'
  toLocal8Bit := List.map fun c => if c.toNat < 128 then UInt8.ofNat c.toNat else 63
  matcher := plainMatcher
  poolThreads := 1
  convertPathIntoMountPoint := id
  getFsBufByPath := fun path => (path, some b)
  uninitialized := 0

theorem sampleEnv_transparent (b : FsBuf) : AsciiDecoder.Transparent (sampleEnv b).fromLocal8Bit := by
  refine ⟨rfl, fun s c t _ => List.map_append, fun c t hc ht => ⟨(sampleEnv b).fromLocal8Bit t, ?_, ?_, ?_⟩⟩
  · exact congrArg (· :: _) (if_pos hc.2)
  · exact List.map_eq_nil_iff
  · intro x hx
    obtain ⟨y, hy, rfl⟩ := List.mem_map.mp hx
    rw [if_neg (Nat.not_lt_of_le (ht y hy))]
    decide

/-- The image of `/d/a/x` and `/d/b`. -/
def sampleDirBuf : FsBuf :=
  imageBuf [47] (.node [100] (.node [97] (.leaf [120] .nil) (.leaf [98] .nil)) .nil) 128

theorem represents_sampleDirBuf :
    Represents sampleDirBuf [47] (.node [100] (.node [97] (.leaf [120] .nil) (.leaf [98] .nil)) .nil) :=
  represents_imageBuf _ _ 128 ⟨rfl, rfl, by decide⟩ (by decide) (by decide) (by decide)

/-- Below `/d`, one result to a page and nothing that starts with `a`: the second page comes upon `/d/a/x`,
which is no result. -/
theorem pagedSearch_iff_sample : ∃ n pages,
    (sampleEnv sampleDirBuf).pagedSearch "/d".toList [] (pageRules 1 ["a".toList]) n 0 0 = .ok pages ∧
    PagesOk (sampleEnv sampleDirBuf) sampleDirBuf [47]
      (.node [100] (.node [97] (.leaf [120] .nil) (.leaf [98] .nil)) .nil) [[100]] [] [[97]] 1 pages := by
  have hrep := represents_sampleDirBuf
  have hs : (sampleEnv sampleDirBuf).Serves "/d".toList "/d".toList sampleDirBuf [47, 100] :=
    ⟨rfl, sampleEnv_transparent _, rfl, rfl, by decide, by decide, rfl⟩
  have htargets : TargetsOk ["a".toList] := by
    intro target htarget
    obtain rfl := List.mem_singleton.mp htarget
    refine ⟨fun c hc => ?_, by decide, by decide⟩
    obtain rfl : c = 'a' := List.mem_singleton.mp hc
    decide
  refine (pagedSearch_iff hrep hs (by decide) (q := [[100]]) (by decide) rfl htargets (by decide) []).mpr ?_
  rintro q' ⟨hne, hentry, -⟩
  obtain ⟨e, he⟩ := Option.isSome_iff_exists.mp hentry
  obtain ⟨x, hx, -, hpath, -⟩ := hrep.exists_item_of_entryAt (by simp) he
  have hall : ∀ x ∈ treeItems sampleDirBuf.firstNameOff []
      (.node [100] (.node [97] (.leaf [120] .nil) (.leaf [98] .nil)) .nil),
      ([47] ++ joinPath x.path).length < pathMax := by decide
  exact hpath ▸ hall x hx

/-- The longest name that a file can have. -/
def longName : Bytes := List.replicate 255 97

/-- A file below directories that stand one in the other, all with the longest name. -/
def deepTree : ℕ → Tree
  | 0 => .leaf longName .nil
  | n + 1 => .node longName (deepTree n) .nil

/-- The image of a file with a path of 4352 bytes. -/
def deepBuf : FsBuf := imageBuf [47] (deepTree 16) 8192

theorem deepTree_valid (n : ℕ) : (deepTree n).Valid NameOk := by
  have hname : NameOk longName := by decide
  induction n with
  | zero => exact ⟨hname, by simp, trivial⟩
  | succ n ih => exact ⟨hname, by simp, ih, trivial⟩

theorem deepTree_entryAt (n : ℕ) : ((deepTree n).entryAt (List.replicate (n + 1) longName)).isSome := by
  induction n with
  | zero => simp [deepTree, entryAt, find?]
  | succ n ih =>
    rw [List.replicate_succ, deepTree]
    simpa [entryAt, find?] using ih

/-- A well-formed index with an entry whose path does not fit: no paging comes to an end, whatever is asked
for, and the first page already writes outside `tmp_path`. -/
theorem not_pagedSearch_listing :
    Represents deepBuf [47] (deepTree 16) ∧
    (sampleEnv deepBuf).pagedSearch ('/' :: List.replicate 255 'a') [] (pageRules (-1) []) (deepBuf.tail + 1) 0 0 =
      .error .outOfBounds ∧
    ¬ ∃ n pages, (sampleEnv deepBuf).pagedSearch ('/' :: List.replicate 255 'a') [] (pageRules (-1) []) n 0 0 =
      .ok pages := by
  have hrep : Represents deepBuf [47] (deepTree 16) :=
    represents_imageBuf _ _ 8192 ⟨rfl, rfl, by decide⟩ (deepTree_valid 16) (by decide +kernel) (by decide)
  have hs : (sampleEnv deepBuf).Serves ('/' :: List.replicate 255 'a') ('/' :: List.replicate 255 'a') deepBuf
      (47 :: longName) :=
    ⟨rfl, sampleEnv_transparent _, by decide +kernel, rfl, by decide +kernel, by decide +kernel, rfl⟩
  have hlisted : Listed (deepTree 16) [longName] [] [] (List.replicate 16 longName) :=
    ⟨by simp, deepTree_entryAt 16, List.nil_infix, fun _ _ h => nomatch h.choose_spec.1⟩
  have hres : resolve [47] (deepTree 16) (47 :: longName) = some [longName] := by decide +kernel
  have hdir : (deepTree 16).entryAt [longName] = some (.node (deepTree 15)) := by decide +kernel
  have hmet := metByPages_of_listed hrep hres hdir (pageSize_pos (-1)) hlisted
  have hnone : TargetsOk [] := fun _ h => nomatch h
  have hmax : -2 ^ 31 ≤ (-1 : ℤ) ∧ (-1 : ℤ) < 2 ^ 31 := by decide
  obtain ⟨pages, heq, -⟩ := exists_pagedSearch_eq hrep hs (by decide +kernel) hres hdir hnone hmax []
  rw [checked_of ⟨_, hmet, by decide +kernel⟩] at heq
  refine ⟨hrep, heq, ?_⟩
  rintro ⟨n, pages', hpages⟩
  have hmore := pagedSearch_mono (Nat.le_max_left n (deepBuf.tail + 1)) (by rw [hpages]; simp)
  rw [pagedSearch_mono (Nat.le_max_right n (deepBuf.tail + 1)) (by rw [heq]; simp), heq, hpages] at hmore
  cases hmore

end DeepinAnything.Server
