import DeepinAnything.Server.Buffers
import DeepinAnything.Server.CatchUp

/-!
# Changes while an index is built (`lftmanager.cpp`)

A build reads one directory after the other, and its index is installed when it has finished. The handlers do not wait
for it: an event that is handled before goes into the old index, or nowhere. Nothing is lost by that as long as the
build was still to come to where the operation took place. What has happened where it had been must be handled after it
has finished.
-/

namespace DeepinAnything.Server

open ByteMem OrderedForest OrderedForest.Forest

/-! ## The code -/

/-- The path of a directory with a slash at its end. -/
def dirPath (path : QString) : QString := if path.getLast? = some '/' then path else path ++ ['/']

/-- `buildFSBuf`, on what `opendir` and `readdir` give to the build; an index without entries is none. -/
def buildFSBuf (locale : Locale) (env : WalkEnv) (fresh : Option Mem) (fuel : ℕ) (path : QString) : Option FsBuf :=
  (newFsBuf fresh (1 <<< 24) (constData (locale.toLocal8Bit path))).bind fun b =>
    match env.buildFstree fuel b with
    | (some false, b, _) => if b.tail = b.firstNameOff then none else some b
    | _ => none

/-- What a build has read of each directory. -/
structure Scan where
  listed : List Bytes → Option (List Dirent)

/-- How a build ends: the job, the buffer and the name of its file, and what it has met. -/
structure Ending where
  job : Job
  buf : ℕ
  allowed : Bool
  lftFile : QString
  env : WalkEnv
  fresh : Option Mem
  fuel : ℕ

/-- The files, the operations whose events are queued, the manager, and the build as long as it runs. -/
structure Building where
  files : Files
  queue : List Queued
  buffers : Buffers FsBuf
  scan : Option Scan

/-- What happens: an operation takes place, an event is handled, a directory is read, the build finishes. -/
inductive Building.Act where
  | operate (op : FileOp)
  | handle (host : FileHost)
  | list (q : List Bytes) (des : List Dirent)
  | finish (e : Ending)

namespace Scan

variable (scan : Scan)

/-- The walk comes to a directory that it has found. -/
def Found (q : List Bytes) : Prop :=
  q = [] ∨ ∃ d des de, q = d ++ [de.name] ∧ scan.listed d = some des ∧ de ∈ des ∧ de.isSkipped = false ∧ de.type = .dir

/-- The build is still to come to the directory, or may come to it when it has read one above it. -/
def Ahead (d : List Bytes) : Prop := ∃ p, p <+: d ∧ scan.Found p ∧ scan.listed p = none

/-- A directory is read. -/
def list (q : List Bytes) (des : List Dirent) : Scan := ⟨Function.update scan.listed q (some des)⟩

end Scan

namespace Building

variable (locale : Locale) (m : List QString) (s : Building)

/-- The files, the queue and the indexes, without the build. -/
def watch : Watched := ⟨s.files, s.queue.map Queued.op, s.buffers.toLftManager⟩

/-- The `finished` handler, with the index that has been built. -/
def finish (e : Ending) : Option FsBuf → Option (Buffers FsBuf)
  | none => s.buffers.finished e.job none e.allowed e.lftFile
  | some image =>
    Buffers.finished { s.buffers with content := Function.update s.buffers.content e.buf image } e.job (some e.buf)
      e.allowed e.lftFile

/-- A step of the system. The build has read all that it has found when it finishes. -/
inductive Step : Building → Act → Building → Prop
  | operate {s : Building} {op : FileOp} {ahead : Bool}
      (hahead : ahead = true ↔ ∃ scan, s.scan = some scan ∧ ∀ q ∈ op.paths, scan.Ahead q.dropLast) :
      Step s (.operate op) { s with files := op.apply s.files, queue := s.queue ++ [⟨op, ahead⟩] }
  | handle {s : Building} {host : FileHost} {o : Queued} {queue : List Queued} {manager : LftManager FsBuf}
      (hqueue : s.queue = o :: queue) (hrun : s.buffers.toLftManager.onFileChanged locale
        [(host, (o.op.serverEvent (locale.filePath m)).actionPair)] = some manager) :
      Step s (.handle host) { s with queue := queue, buffers := { s.buffers with toLftManager := manager } }
  | list {s : Building} {scan : Scan} {q : List Bytes} {des : List Dirent} (hscan : s.scan = some scan)
      (hfound : scan.Found q) (hnew : scan.listed q = none) :
      Step s (.list q des) { s with scan := some (scan.list q des) }
  | finish {s : Building} {scan : Scan} {e : Ending} {buffers : Buffers FsBuf} (hscan : s.scan = some scan)
      (hread : ∀ q, scan.Found q → (scan.listed q).isSome) (hjob : e.job ∈ s.buffers.jobs)
      (hfinish : s.finish e (buildFSBuf locale e.env e.fresh e.fuel (dirPath e.job.path)) = some buffers) :
      Step s (.finish e) { s with buffers := buffers, scan := none }

/-- The states that are reached from one with an empty queue before a build reads anything, with steps that meet a
condition. -/
inductive Reachable (ok : Building → Act → Prop) : Building → Prop
  | initial {files : Files} (hclosed : files.Closed) (buffers : Buffers FsBuf) :
      Reachable ok ⟨files, [], buffers, some ⟨fun _ => none⟩⟩
  | step {s s' : Building} {a : Act} (hs : Reachable ok s) (hok : ok s a) (hstep : Step locale m s a s') :
      Reachable ok s'

/-! ## The condition -/

/-- The build is not cancelled, finds what it has been shown, and ends with an index, which the handler installs for
the mount point. -/
structure Ends (scan : Scan) (e : Ending) : Prop where
  root : RootPath (locale.toLocal8Bit (dirPath e.job.path))
  sane : e.env.Sane
  short : ∀ q, (scan.listed q).isSome → (pathOf (locale.toLocal8Bit (dirPath e.job.path)) q).length ≤ pathMax - 2
  meets : ∀ q des, scan.listed q = some des → ∀ de,
    e.env.Meets (pathOf (locale.toLocal8Bit (dirPath e.job.path)) q) de ↔ de ∈ des ∧ de.isSkipped = false
  stored : ∀ b, newFsBuf e.fresh (1 <<< 24) (locale.toLocal8Bit (dirPath e.job.path)) = some b →
    (e.env.buildFstree e.fuel b).2.2.failed = false
  built : (buildFSBuf locale e.env e.fresh e.fuel (dirPath e.job.path)).isSome
  taken : s.buffers.taken e.job (some e.buf) e.allowed = some e.buf
  nodup : e.job.pathList.Nodup
  mounted : pathString m ∈ e.job.pathList
  fresh : e.buf ∉ s.buffers.fsBufList

/-- Operations are carried out by the file system, directories are read as they are, the build ends with an index, and
the events behind its end are handled with an index that can take them. -/
def Ready : Act → Prop
  | .operate op => op.Legal s.files
  | .handle host => s.scan = none → s.watch.Ready locale m (.handle host)
  | .list q des => s.files.Lists q des
  | .finish e => ∀ scan ∈ s.scan, s.Ends locale m scan e

/-- While the build runs no event is handled but of operations that it was still to come to, and afterwards only when
what has been created is taken for what it was. A rename takes place before the build has come to either directory,
and its event is handled before the end, or behind it, when there is nothing more to read at its paths or below. -/
def Timely : Act → Prop
  | .operate op => op.Moves → ∀ scan ∈ s.scan, (∀ q ∈ op.paths, scan.Ahead q.dropLast) ∨
      ∀ q ∈ op.paths, ∀ d, q <+: d → ¬ scan.Ahead d
  | .handle host => (s.scan.isSome → ∀ o ∈ s.queue.head?, o.ahead = true) ∧
      (s.scan = none → s.watch.SeenRight locale m (.handle host))
  | .list _ _ => True
  | .finish _ => ∀ o ∈ s.queue, o.op.Moves → o.ahead = false

end Building

/-! ## What is still to be read -/

namespace Scan

variable {scan : Scan} {d q : List Bytes} {des : List Dirent}

theorem Ahead.mono {p : List Bytes} (h : scan.Ahead p) (hp : p <+: q) : scan.Ahead q :=
  let ⟨r, hr, hfound, hnone⟩ := h
  ⟨r, hr.trans hp, hfound, hnone⟩

@[simp]
theorem listed_list_self : (scan.list q des).listed q = some des := Function.update_self ..

theorem listed_list_of_ne (h : d ≠ q) : (scan.list q des).listed d = scan.listed d := Function.update_of_ne h ..

/-- What has been read stays found. -/
theorem Found.list (h : scan.Found d) (hnew : scan.listed q = none) : (scan.list q des).Found d := by
  rcases h with rfl | ⟨d', des', de, rfl, hd, hde⟩
  · exact .inl rfl
  · refine .inr ⟨d', des', de, rfl, ?_, hde⟩
    rw [listed_list_of_ne, hd]
    rintro rfl
    rw [hnew] at hd
    cases hd

/-- Nothing comes to be ahead. -/
theorem Ahead.of_list (hfound : scan.Found q) (hnew : scan.listed q = none) (h : (scan.list q des).Ahead d) :
    scan.Ahead d := by
  obtain ⟨p, hp, hfoundp, hnone⟩ := h
  have hne : p ≠ q := by
    rintro rfl
    rw [listed_list_self] at hnone
    cases hnone
  rw [listed_list_of_ne hne] at hnone
  rcases hfoundp with rfl | ⟨d', des', de, rfl, hd, hde⟩
  · exact ⟨[], hp, .inl rfl, hnone⟩
  · by_cases hq : d' = q
    · exact ⟨q, hq ▸ (List.prefix_append d' [de.name]).trans hp, hfound, hnew⟩
    · rw [listed_list_of_ne hq] at hd
      exact ⟨_, hp, .inr ⟨d', des', de, rfl, hd, hde⟩, hnone⟩

/-- What a run of a build keeps: it has found what it has read; what it has read, and is still to come to, is what is
shown to it by operations at the right time. -/
structure Sound (scan : Scan) (fs : Files) (os : List Queued) (now : Files) : Prop where
  closed : fs.Closed
  makes : Makes fs os now
  found : ∀ d, (scan.listed d).isSome → scan.Found d
  lists : ∀ d des, scan.listed d = some des → Files.Lists (shown fs os) d des
  ahead : ∀ d, scan.Ahead d → ∀ x, now (d ++ [x]) = shown fs os (d ++ [x])
  past : ∀ o ∈ os, o.op.Moves → o.ahead = false → ∀ q ∈ o.op.paths, ∀ d, q <+: d → ¬ scan.Ahead d
  apart : os.Pairwise Apart

namespace Sound

variable {fs now : Files} {os : List Queued} {op : FileOp} {ahead : Bool}

/-- With a directory everything above it has been read. -/
theorem above (h : scan.Sound fs os now) {p : List Bytes} (hp : p <+: q) (hq : (scan.listed q).isSome) :
    (scan.listed p).isSome := by
  obtain ⟨r, rfl⟩ := hp
  induction r using List.reverseRecOn with
  | nil => rwa [List.append_nil] at hq
  | append_singleton r x ih =>
    refine ih ?_
    rw [← List.append_assoc] at hq
    rcases h.found _ hq with hnil | ⟨d, des, de, heq, hd, -⟩
    · simp at hnil
    · rw [(List.append_inj' heq rfl).1, hd]
      rfl

theorem not_ahead (h : scan.Sound fs os now) (hq : (scan.listed q).isSome) : ¬ scan.Ahead q := by
  rintro ⟨p, hp, -, hnone⟩
  have hthere := h.above hp hq
  rw [hnone] at hthere
  cases hthere

/-- An operation takes place. -/
theorem operate (h : scan.Sound fs os now) (hlegal : op.Legal now)
    (hahead : ahead = true ↔ ∀ q ∈ op.paths, scan.Ahead q.dropLast)
    (hmoves : op.Moves → (∀ q ∈ op.paths, scan.Ahead q.dropLast) ∨ ∀ q ∈ op.paths, ∀ d, q <+: d → ¬ scan.Ahead d) :
    scan.Sound fs (os ++ [⟨op, ahead⟩]) (op.apply now) := by
  have hnow := h.makes.closed h.closed
  have hpast : op.Moves → ahead = false → ∀ q ∈ op.paths, ∀ d, q <+: d → ¬ scan.Ahead d := fun hop hfalse =>
    (hmoves hop).resolve_left fun hall => by
      rw [hahead.mpr hall] at hfalse
      cases hfalse
  refine ⟨h.closed, h.makes.concat hlegal, h.found, fun d des hd => ?_, fun d hd x => ?_, ?_, ?_⟩
  · refine (h.lists d des hd).congr fun x => ?_
    rw [shown_concat h.makes, if_neg]
    rintro ⟨htrue, p, hp, hpre⟩
    -- what has been read is no place that is ahead
    have hlisted : (scan.listed d).isSome := by rw [hd]; rfl
    refine h.not_ahead hlisted ((hahead.mp htrue p hp).mono ?_)
    rcases List.prefix_concat_iff.mp hpre with rfl | hpre
    · rw [List.dropLast_concat]
    · exact (List.dropLast_prefix p).trans hpre
  · rw [shown_concat h.makes]
    by_cases hcond : ahead = true ∧ op.Meets (d ++ [x])
    · rw [if_pos hcond]
    · rw [if_neg hcond, ← h.ahead d hd]
      by_cases hmeets : op.Meets (d ++ [x])
      · -- the build is not to come to the operation, but to the directory
        obtain rfl : ahead = false := by simpa [hmeets] using hcond
        by_cases hop : op.Moves
        · obtain ⟨p, hp, hpre⟩ := hmeets
          rcases List.prefix_concat_iff.mp hpre with rfl | hpre
          · exact absurd (hd.mono (List.prefix_append d [x])) (hpast hop rfl _ hp _ List.prefix_rfl)
          · exact absurd hd (hpast hop rfl p hp d hpre)
        · refine hlegal.apply_of_not_path hnow hop fun hmem => ?_
          suffices hall : ∀ q ∈ op.paths, scan.Ahead q.dropLast from absurd (hahead.mpr hall) (by simp)
          rw [FileOp.paths_of_not_moves hop hmem, List.forall_mem_singleton, List.dropLast_concat]
          exact hd
      · exact FileOp.apply_of_not_meets hmeets
  · intro o ho hop hfalse
    rcases List.mem_append.mp ho with ho | ho
    · exact h.past o ho hop hfalse
    · obtain rfl := List.mem_singleton.mp ho
      exact hpast hop hfalse
  · refine List.pairwise_append.mpr ⟨h.apart, List.pairwise_singleton .., fun o ho o' ho' => ?_⟩
    obtain rfl := List.mem_singleton.mp ho'
    intro hop hfalse htrue p hp p' hp'
    have hpast := h.past o ho hop hfalse p hp
    have hparent : scan.Ahead p'.dropLast := hahead.mp htrue p' hp'
    refine ⟨fun hpre => hpast p' hpre (hparent.mono (List.dropLast_prefix p')), fun hpre => ?_⟩
    exact hpast p List.prefix_rfl (hparent.mono ((List.dropLast_prefix p').trans hpre))

/-- The event of an operation that the build is still to come to is handled. -/
theorem handle {o : Queued} (h : scan.Sound fs (o :: os) now) (ho : o.ahead = true) :
    scan.Sound (o.op.apply fs) os now := by
  have hshown : shown (o.op.apply fs) os = shown fs (o :: os) := funext fun q =>
    (shown_cons fun hmeets => sees_cons.mpr (.inl ⟨ho, hmeets⟩)).symm
  refine ⟨h.makes.1.closed h.closed, h.makes.2, h.found, ?_, ?_, fun o' ho' => h.past o' (List.mem_cons_of_mem o ho'),
    h.apart.of_cons⟩
  · rw [hshown]
    exact h.lists
  · rw [hshown]
    exact h.ahead

/-- A directory is read. -/
theorem list (h : scan.Sound fs os now) (hfound : scan.Found q) (hnew : scan.listed q = none)
    (hlists : now.Lists q des) : (scan.list q des).Sound fs os now := by
  refine ⟨h.closed, h.makes, fun d hd => ?_, fun d des' hd => ?_, fun d hd => h.ahead d (hd.of_list hfound hnew),
    fun o ho hop hfalse p hp d hpre hd => h.past o ho hop hfalse p hp d hpre (hd.of_list hfound hnew), h.apart⟩
  · by_cases heq : d = q
    · exact heq ▸ hfound.list hnew
    · rw [listed_list_of_ne heq] at hd
      exact (h.found d hd).list hnew
  · by_cases heq : d = q
    · subst heq
      rw [listed_list_self] at hd
      obtain rfl := Option.some.inj hd
      exact hlists.congr fun x => (h.ahead d ⟨d, List.prefix_rfl, hfound, hnew⟩ x).symm
    · rw [listed_list_of_ne heq] at hd
      exact h.lists d des' hd

end Sound

/-- The files that the index of the build has: what has been shown, in the directories that it has read. -/
noncomputable def result (scan : Scan) (fs : Files) (os : List Queued) : Files := fun q =>
  if q = [] ∨ (scan.listed q.dropLast).isSome then shown fs os q else none

namespace Sound

variable {fs now : Files} {os : List Queued}

theorem result_concat (x : Bytes) : scan.result fs os (q ++ [x]) =
    if (scan.listed q).isSome then shown fs os (q ++ [x]) else none := by
  simp [result]

theorem result_root (h : scan.Sound fs os now) : scan.result fs os [] = some .dir :=
  (if_pos (.inl rfl)).trans (shown_nil h.makes h.closed)

/-- What has been read as a directory is one. -/
theorem result_found (h : scan.Sound fs os now) (hfound : scan.Found q) : scan.result fs os q = some .dir := by
  rcases hfound with rfl | ⟨d, des, de, rfl, hd, hmem, hskip, htype⟩
  · exact h.result_root
  · obtain ⟨k, hk, hkind⟩ := (h.lists d des hd de).mp ⟨hmem, hskip⟩
    rw [result_concat, hd, Option.isSome_some, if_pos rfl, hk, k.dType_eq_dir.mp (hkind.symm.trans htype)]

theorem result_closed (h : scan.Sound fs os now) : (scan.result fs os).Closed := by
  refine ⟨h.result_root, fun q x hthere => ?_⟩
  rw [result_concat] at hthere
  split at hthere
  · exact h.result_found (h.found q ‹_›)
  · cases hthere

/-- What is shown as a directory is found. -/
theorem found_of_shown (h : scan.Sound fs os now) {x : Bytes} (hq : (scan.listed q).isSome)
    (hdir : shown fs os (q ++ [x]) = some .dir) : scan.Found (q ++ [x]) := by
  obtain ⟨des, hdes⟩ := Option.isSome_iff_exists.mp hq
  obtain ⟨hmem, hskip⟩ := (h.lists q des hdes ⟨x, .dir⟩).mpr ⟨.dir, hdir, rfl⟩
  exact .inr ⟨q, des, ⟨x, .dir⟩, rfl, hdes, hmem, hskip, rfl⟩

/-- When the build has read all that it has found, it has read these directories. -/
theorem result_lists (h : scan.Sound fs os now) (hread : ∀ q, scan.Found q → (scan.listed q).isSome)
    (hq : scan.result fs os q = some .dir) : ∃ des, scan.listed q = some des ∧ (scan.result fs os).Lists q des := by
  have hlisted : (scan.listed q).isSome := by
    rcases List.eq_nil_or_concat' q with rfl | ⟨d, x, rfl⟩
    · exact hread [] (.inl rfl)
    · rw [result_concat] at hq
      split at hq
      · exact hread _ (h.found_of_shown ‹_› hq)
      · cases hq
  obtain ⟨des, hdes⟩ := Option.isSome_iff_exists.mp hlisted
  exact ⟨des, hdes, (h.lists q des hdes).congr fun x => by rw [result_concat, if_pos hlisted]⟩

/-- Directories to which nothing has happened have been read. -/
theorem listed_of_not_sees (h : scan.Sound fs os now) (hread : ∀ q, scan.Found q → (scan.listed q).isSome)
    (hq : fs q = some .dir) (hsees : ¬ Sees os q) : (scan.listed q).isSome := by
  induction q using List.reverseRecOn with
  | nil => exact hread [] (.inl rfl)
  | append_singleton q x ih =>
    have hdir := h.closed.parent q x (by rw [hq]; rfl)
    have hlisted := ih hdir fun hthere => hsees (hthere.mono (List.prefix_append q [x]))
    exact hread _ (h.found_of_shown hlisted ((shown_of_not_sees hsees).trans hq))

/-- The queued events make up what the index is missing. -/
theorem catches (h : scan.Sound fs os now) (hread : ∀ q, scan.Found q → (scan.listed q).isSome) :
    Catches (scan.result fs os).shape fs os := by
  intro q
  rcases List.eq_nil_or_concat' q with rfl | ⟨d, x, rfl⟩
  · rw [CatchesAt, Files.shape, Files.shape, h.result_root, shown_nil h.makes h.closed]
    exact .inl rfl
  · rw [CatchesAt, Files.shape, Files.shape, result_concat]
    split
    · exact .inl rfl
    · rename_i hunread
      by_cases hsees : Sees os (d ++ [x])
      · exact .inr ⟨hsees, .inl rfl⟩
      · have hnone : fs (d ++ [x]) = none := by
          refine Option.not_isSome_iff_eq_none.mp fun hthere => hunread ?_
          exact h.listed_of_not_sees hread (h.closed.parent d x hthere) fun habove =>
            hsees (habove.mono (List.prefix_append d [x]))
        rw [shown_of_not_sees hsees, hnone]
        exact .inl rfl

end Sound

end Scan

/-! ## Runs -/

namespace Building

variable {locale : Locale} {m : List QString} {s s' : Building} {a : Act}

/-- The index that a build ends with has what has been read. -/
theorem Ends.holds {scan : Scan} {e : Ending} {fs : Files} (h : s.Ends locale m scan e) (hclosed : fs.Closed)
    (hlisted : ∀ q, fs q = some .dir → ∃ des, scan.listed q = some des ∧ fs.Lists q des) :
    ∃ image, buildFSBuf locale e.env e.fresh e.fuel (dirPath e.job.path) = some image ∧
      Holds locale image fs.shape := by
  obtain ⟨image, himage⟩ := Option.isSome_iff_exists.mp h.built
  refine ⟨image, himage, ?_⟩
  have hshows : e.env.Shows (locale.toLocal8Bit (dirPath e.job.path)) fs := by
    refine ⟨h.sane, fun q hq => ?_, fun q hq de => ?_⟩
    · obtain ⟨des, hdes, -⟩ := hlisted q hq
      exact h.short q (by rw [hdes]; rfl)
    · obtain ⟨des, hdes, hlists⟩ := hlisted q hq
      exact (h.meets q des hdes de).trans (hlists de)
  rw [buildFSBuf, constData_eq h.root.ok.zero] at himage
  obtain ⟨b, hnew, hbuild⟩ := Option.bind_eq_some_iff.mp himage
  split at hbuild
  · rename_i b' pr' hrun
    split at hbuild
    · cases hbuild
    · obtain rfl := Option.some.inj hbuild
      have hok := h.stored b hnew
      rw [hrun] at hok
      obtain ⟨w, hrep, hkind⟩ := hshows.exists_represents hclosed hnew h.root.ok.zero hrun hok
      exact ⟨_, w, hrep, h.root, ⟨_, rfl⟩, hkind⟩
  · cases hbuild

/-- A walk that is not cancelled and finds something is built. -/
theorem buildFSBuf_eq_some {env : WalkEnv} {fresh : Option Mem} {fuel : ℕ} {path : QString} {b image : FsBuf}
    {pr' : ProgressReport} (hnew : newFsBuf fresh (1 <<< 24) (constData (locale.toLocal8Bit path)) = some b)
    (hbuild : env.buildFstree fuel b = (some false, image, pr')) (hfilled : image.tail ≠ image.firstNameOff) :
    buildFSBuf locale env fresh fuel path = some image := by
  rw [buildFSBuf, hnew, Option.bind_some, hbuild]
  exact if_neg hfilled

/-- The mount point has an index from which the queued events make one of the files. -/
def Caught (locale : Locale) (m : List QString) (s : Building) : Prop :=
  ∃ K buf, s.buffers.fsBufMap.lookup (pathString m) = some buf ∧ Holds locale (s.buffers.content buf) K ∧
    replayAll K (s.queue.map Queued.op) = s.files.shape

/-- What holds in a run. -/
structure Sound (locale : Locale) (m : List QString) (s : Building) : Prop where
  reading : ∀ scan, s.scan = some scan → ∃ fs, scan.Sound fs s.queue s.files
  done : s.scan = none → s.Caught locale m

/-- The steps at the right time of a system that works. -/
def StepOk (locale : Locale) (m : List QString) (s : Building) (a : Act) : Prop :=
  s.Ready locale m a ∧ s.Timely locale m a

namespace Sound

theorem operate (h : s.Sound locale m) {op : FileOp} {ahead : Bool} (hok : s.StepOk locale m (.operate op))
    (hahead : ahead = true ↔ ∃ scan, s.scan = some scan ∧ ∀ q ∈ op.paths, scan.Ahead q.dropLast) :
    Sound locale m { s with files := op.apply s.files, queue := s.queue ++ [⟨op, ahead⟩] } := by
  obtain ⟨hlegal, hmoves⟩ : op.Legal s.files ∧ _ := hok
  refine ⟨fun scan hscan => ?_, fun hdone => ?_⟩
  · obtain ⟨fs, hsound⟩ := h.reading scan hscan
    refine ⟨fs, hsound.operate hlegal (hahead.trans ⟨?_, fun hall => ⟨scan, hscan, hall⟩⟩) fun hop =>
      hmoves hop scan hscan⟩
    rintro ⟨scan', hscan', hall⟩
    obtain rfl := Option.some.inj (hscan.symm.trans hscan')
    exact hall
  · obtain ⟨K, buf, hbuf, hholds, hreplay⟩ := h.done hdone
    refine ⟨K, buf, hbuf, hholds, ?_⟩
    rw [List.map_append, List.map_singleton, replayAll_concat, hreplay]
    exact (FileEvent.replay_of_possible hlegal.possible).trans hlegal.shape_apply.symm

theorem handle (h : s.Sound locale m) {host : FileHost} {o : Queued} {queue : List Queued}
    {manager : LftManager FsBuf} (hok : s.StepOk locale m (.handle host)) (hqueue : s.queue = o :: queue)
    (hrun : s.buffers.toLftManager.onFileChanged locale
      [(host, (o.op.serverEvent (locale.filePath m)).actionPair)] = some manager) :
    Sound locale m { s with queue := queue, buffers := { s.buffers with toLftManager := manager } } := by
  obtain ⟨hready, hahead, hseen⟩ := hok
  refine ⟨fun scan hscan => ?_, fun hdone => ?_⟩
  · obtain ⟨fs, hsound⟩ := h.reading scan hscan
    rw [hqueue] at hsound
    exact ⟨_, hsound.handle (hahead (Option.isSome_of_eq_some hscan) o (by simp [hqueue]))⟩
  · obtain ⟨K, buf, hbuf, hholds, hreplay⟩ := h.done hdone
    have hop : o.op ∈ s.watch.queue.head? := by simp [watch, hqueue]
    obtain ⟨manager', hrun', hmap, hholds'⟩ := (hready hdone o.op hop).entered hbuf hholds
    obtain rfl := Option.some.inj (hrun.symm.trans hrun')
    rw [(hseen hdone o.op hop).reported_eq] at hholds'
    refine ⟨_, buf, ?_, hholds', ?_⟩
    · show manager.fsBufMap.lookup (pathString m) = some buf
      rw [hmap]
      exact hbuf
    · rw [hqueue] at hreplay
      exact hreplay

theorem finish (h : s.Sound locale m) {scan : Scan} {e : Ending} {buffers : Buffers FsBuf}
    (hok : s.StepOk locale m (.finish e)) (hscan : s.scan = some scan)
    (hread : ∀ q, scan.Found q → (scan.listed q).isSome)
    (hfinish : s.finish e (buildFSBuf locale e.env e.fresh e.fuel (dirPath e.job.path)) = some buffers) :
    Sound locale m { s with buffers := buffers, scan := none } := by
  obtain ⟨hends, hmoves⟩ := hok
  obtain ⟨fs, hsound⟩ := h.reading scan hscan
  have hends := hends scan hscan
  obtain ⟨image, himage, hholds⟩ := hends.holds hsound.result_closed fun q => hsound.result_lists hread
  rw [himage] at hfinish
  obtain ⟨hthere, hcontent⟩ := Buffers.finished_installs hfinish hends.taken hends.fresh hends.nodup
  refine ⟨fun _ hnone => (nomatch hnone), fun _ => ⟨_, e.buf, hthere _ hends.mounted, ?_,
    (hsound.catches hread).replayAll_eq hsound.closed hsound.makes hmoves hsound.apart⟩⟩
  show Holds locale (buffers.content e.buf) _
  rw [hcontent]
  show Holds locale (Function.update s.buffers.content e.buf image e.buf) _
  rwa [Function.update_self]

/-- One step keeps it. -/
theorem step (h : s.Sound locale m) (hok : s.StepOk locale m a) (hstep : Step locale m s a s') :
    s'.Sound locale m := by
  cases hstep with
  | operate hahead => exact h.operate hok hahead
  | handle hqueue hrun => exact h.handle hok hqueue hrun
  | list hscan hfound hnew =>
    refine ⟨fun scan' hscan' => ?_, fun hdone => (nomatch hdone)⟩
    obtain rfl := Option.some.inj hscan'
    obtain ⟨fs, hsound⟩ := h.reading _ hscan
    exact ⟨fs, hsound.list hfound hnew hok.1⟩
  | finish hscan hread hjob hfinish => exact h.finish hok hscan hread hfinish

end Sound

/-- When a build starts, everything is still to be read. -/
theorem sound_initial {files : Files} (hclosed : files.Closed) (buffers : Buffers FsBuf) :
    Sound locale m ⟨files, [], buffers, some ⟨fun _ => none⟩⟩ := by
  refine ⟨fun scan hscan => ?_, fun hdone => (nomatch hdone)⟩
  obtain rfl := Option.some.inj hscan
  exact ⟨files, hclosed, rfl, fun _ hthere => (nomatch hthere), fun _ _ hd => (nomatch hd), fun _ _ _ => rfl,
    fun _ ho => (nomatch ho), .nil⟩

theorem Reachable.sound (h : Reachable locale m (StepOk locale m) s) : s.Sound locale m := by
  induction h with
  | initial hclosed buffers => exact sound_initial hclosed buffers
  | step _ hok hstep ih => exact ih.step hok hstep

/-- In a run whose steps come at the right time no change is lost: when the build has finished, the mount point has an
index from which the queued events make one of the files, and which is one of them when every event has been
handled. -/
theorem reachable_holds (h : Reachable locale m (StepOk locale m) s) (hdone : s.scan = none) :
    ∃ buf, s.buffers.fsBufMap.lookup (pathString m) = some buf ∧
      (∃ K, Holds locale (s.buffers.content buf) K ∧ replayAll K (s.queue.map Queued.op) = s.files.shape) ∧
      (s.queue = [] → Holds locale (s.buffers.content buf) s.files.shape) := by
  obtain ⟨K, buf, hbuf, hholds, hreplay⟩ := h.sound.done hdone
  refine ⟨buf, hbuf, ⟨K, hholds, hreplay⟩, fun hqueue => ?_⟩
  rw [hqueue] at hreplay
  rwa [show K = s.files.shape from hreplay] at hholds

/-! ## A deletion behind the build -/

open Watched (sampleFiles sampleLink)

/-- The manager that has started to build the index of `/data`. -/
def sampleBuffers : Buffers FsBuf :=
  (Buffers.initial (fun _ => imageBuf [47, 100, 97, 116, 97, 47] .nil 128) fun _ => none).addPath
    ⟨"/data".toList, true, ["/data".toList], "/data".toList, 7, false⟩

/-- The build has read `aa` and a link `a` in `/data`. -/
def sampleRootScan : Scan := Scan.list ⟨fun _ => none⟩ [] [⟨[97, 97], .dir⟩, ⟨[97], .lnk⟩]

/-- And then nothing in `aa`. -/
def sampleScan : Scan := sampleRootScan.list [[97, 97]] []

def sampleEnding : Ending where
  job := ⟨7, "/data".toList, ["/data".toList], false, false⟩
  buf := 8
  allowed := true
  lftFile := "data.lft".toList
  env := WalkEnv.linkEnv [47, 100, 97, 116, 97, 47]
  fresh := some ⟨fun _ => 0⟩
  fuel := 2

theorem sampleScan_listed {q : List Bytes} {des : List Dirent} (h : sampleScan.listed q = some des) :
    q = [] ∧ des = [⟨[97, 97], .dir⟩, ⟨[97], .lnk⟩] ∨ q = [[97, 97]] ∧ des = [] := by
  simp only [sampleScan, sampleRootScan, Scan.list, Function.update_apply] at h
  split at h
  · exact .inr ⟨‹_›, (Option.some.inj h).symm⟩
  · split at h
    · exact .inl ⟨‹_›, (Option.some.inj h).symm⟩
    · cases h

theorem sampleScan_meets {q : List Bytes} {des : List Dirent} (h : sampleScan.listed q = some des) (de : Dirent) :
    (WalkEnv.linkEnv [47, 100, 97, 116, 97, 47]).Meets (pathOf [47, 100, 97, 116, 97, 47] q) de ↔
      de ∈ des ∧ de.isSkipped = false := by
  have hopen : (WalkEnv.linkEnv [47, 100, 97, 116, 97, 47]).opendir (pathOf [47, 100, 97, 116, 97, 47] q) =
      some des := by
    rcases sampleScan_listed h with ⟨rfl, rfl⟩ | ⟨rfl, rfl⟩ <;> rfl
  rw [WalkEnv.Meets, hopen]
  simp [WalkEnv.linkEnv]

theorem sampleEnding_started : sampleEnding.job ∈ sampleBuffers.jobs := by
  decide

/-- `buildFSBuf` ends with an index of what has been read. -/
theorem sampleEnding_built : ∃ b image pr', newFsBuf sampleEnding.fresh (1 <<< 24) [47, 100, 97, 116, 97, 47] = some b ∧
    sampleEnding.env.buildFstree 2 b = (some false, image, pr') ∧ pr'.failed = false ∧
    buildFSBuf LftManager.utf8 sampleEnding.env sampleEnding.fresh 2 (dirPath "/data".toList) = some image ∧
    Represents image [47, 100, 97, 116, 97, 47] (.node [97, 97] .nil (.leaf [97] .nil)) := by
  obtain ⟨b, image, pr', hnew, hbuild, hok, hrep⟩ := Watched.linkEnv_builds
  refine ⟨b, image, pr', hnew, hbuild, hok, ?_, hrep⟩
  have hroot : constData (LftManager.utf8.toLocal8Bit (dirPath "/data".toList)) = [47, 100, 97, 116, 97, 47] := by
    decide
  refine buildFSBuf_eq_some (hroot ▸ hnew) hbuild ?_
  rw [hrep.tail_eq, hrep.first_eq]
  decide

/-- The build ends, and its index is installed. -/
theorem sampleEnding_ends (files : Files) (queue : List Queued) :
    Ends LftManager.utf8 ["data".toList] ⟨files, queue, sampleBuffers, some sampleScan⟩ sampleScan sampleEnding ∧
      (∀ q, sampleScan.Found q → (sampleScan.listed q).isSome) ∧
      ∃ buffers, finish ⟨files, queue, sampleBuffers, some sampleScan⟩ sampleEnding (buildFSBuf LftManager.utf8
          sampleEnding.env sampleEnding.fresh sampleEnding.fuel (dirPath sampleEnding.job.path)) = some buffers ∧
        buffers.fsBufMap.lookup "/data".toList = some 8 ∧
        Represents (buffers.content 8) [47, 100, 97, 116, 97, 47] (.node [97, 97] .nil (.leaf [97] .nil)) := by
  obtain ⟨b, image, pr', hnew, hbuild, hok, himage, hrep⟩ := sampleEnding_built
  have hpath : LftManager.utf8.toLocal8Bit (dirPath sampleEnding.job.path) = [47, 100, 97, 116, 97, 47] := by decide
  have hends : Ends LftManager.utf8 ["data".toList] ⟨files, queue, sampleBuffers, some sampleScan⟩ sampleScan
      sampleEnding := by
    constructor
    case root => exact hpath ▸ ⟨hrep.root_ok, by decide⟩
    case sane => exact WalkEnv.linkEnv_sane _
    case short =>
      intro q hq
      obtain ⟨des, hdes⟩ := Option.isSome_iff_exists.mp hq
      rw [hpath]
      rcases sampleScan_listed hdes with ⟨rfl, -⟩ | ⟨rfl, -⟩ <;> decide
    case meets =>
      rw [hpath]
      exact fun q des hdes => sampleScan_meets hdes
    case stored =>
      intro b' hb'
      rw [hpath] at hb'
      obtain rfl := Option.some.inj (hnew.symm.trans hb')
      show (sampleEnding.env.buildFstree 2 b).2.2.failed = false
      rw [hbuild]
      exact hok
    case built => exact Option.isSome_of_eq_some himage
    case taken => rfl
    case nodup => decide
    case mounted => decide
    case fresh => exact List.not_mem_nil
  refine ⟨hends, ?_, ?_⟩
  · rintro q (rfl | ⟨d, des, de, rfl, hd, hmem, -, htype⟩)
    · rfl
    · rcases sampleScan_listed hd with ⟨rfl, rfl⟩ | ⟨rfl, rfl⟩
      · rcases List.mem_cons.mp hmem with rfl | hmem
        · rfl
        · rw [List.mem_singleton.mp hmem] at htype
          cases htype
      · cases hmem
  · obtain ⟨buffers, hfinished⟩ : ∃ buffers, Buffers.finished
        { sampleBuffers with content := Function.update sampleBuffers.content 8 image } sampleEnding.job (some 8) true
          sampleEnding.lftFile = some buffers := ⟨_, rfl⟩
    obtain ⟨hthere, hcontent⟩ := Buffers.finished_installs hfinished hends.taken hends.fresh hends.nodup
    refine ⟨buffers, (congrArg (finish _ sampleEnding) himage).trans hfinished, hthere _ (by decide), ?_⟩
    rw [hcontent]
    show Represents (Function.update sampleBuffers.content 8 image 8) _ _
    rwa [Function.update_self]

/-- While there is no index an event changes nothing. -/
theorem sampleBuffers_ignores {e : FileEvent} {action : Bytes × Bytes}
    (h : LftManager.utf8.Reports (Watched.sampleHost false) ["data".toList] e action) :
    sampleBuffers.toLftManager.onFileChanged LftManager.utf8 [(Watched.sampleHost false, action)] =
      some sampleBuffers.toLftManager := by
  rw [LftManager.onFileChanged, LftManager.fileChanged_ignored h (.inr rfl)]
  rfl

/-- What is read when the link is there. -/
theorem sampleScan_lists : Files.Lists (sampleLink.apply sampleFiles) [] [⟨[97, 97], .dir⟩, ⟨[97], .lnk⟩] ∧
    Files.Lists (sampleLink.apply sampleFiles) [[97, 97]] [] :=
  ⟨fun de => (sampleScan_meets (q := []) rfl de).symm.trans (Watched.linkEnv_shows.lists [] rfl de),
    fun de => (sampleScan_meets (q := [[97, 97]]) rfl de).symm.trans (Watched.linkEnv_shows.lists [[97, 97]] rfl de)⟩

theorem sampleRootScan_found : sampleRootScan.Found [[97, 97]] :=
  .inr ⟨[], _, ⟨[97, 97], .dir⟩, rfl, rfl, by decide, rfl, rfl⟩

/-- The build is not to come to the root again. -/
theorem not_ahead_sampleRootScan : ¬ sampleRootScan.Ahead [] := by
  rintro ⟨p, hp, -, hnone⟩
  rw [List.prefix_nil.mp hp] at hnone
  cases hnone

theorem sampleFiles_closed : Files.Closed sampleFiles := Files.closed_of_shape Watched.kindAt_sampleDirTree

section

variable {ok : Building → Act → Prop} {files : Files}

/-- The root is read. -/
theorem sample_root {queue : List Queued}
    (h : Reachable LftManager.utf8 ["data".toList] ok ⟨files, queue, sampleBuffers, some ⟨fun _ => none⟩⟩)
    (hok : ok ⟨files, queue, sampleBuffers, some ⟨fun _ => none⟩⟩ (.list [] [⟨[97, 97], .dir⟩, ⟨[97], .lnk⟩])) :
    Reachable LftManager.utf8 ["data".toList] ok ⟨files, queue, sampleBuffers, some sampleRootScan⟩ :=
  .step h hok (.list rfl (.inl rfl) rfl)

/-- The directory is read, and the build finishes. -/
theorem sample_finished
    (h : Reachable LftManager.utf8 ["data".toList] ok ⟨files, [], sampleBuffers, some sampleRootScan⟩)
    (hlist : ok ⟨files, [], sampleBuffers, some sampleRootScan⟩ (.list [[97, 97]] []))
    (hfinish : Ends LftManager.utf8 ["data".toList] ⟨files, [], sampleBuffers, some sampleScan⟩ sampleScan
      sampleEnding → ok ⟨files, [], sampleBuffers, some sampleScan⟩ (.finish sampleEnding)) :
    ∃ buffers, Reachable LftManager.utf8 ["data".toList] ok ⟨files, [], buffers, none⟩ ∧
      buffers.fsBufMap.lookup "/data".toList = some 8 ∧
      Represents (buffers.content 8) [47, 100, 97, 116, 97, 47] (.node [97, 97] .nil (.leaf [97] .nil)) := by
  obtain ⟨hends, hread, buffers, hbuffers, hthere⟩ := sampleEnding_ends files []
  have hlisted : Reachable LftManager.utf8 ["data".toList] ok ⟨files, [], sampleBuffers, some sampleScan⟩ :=
    .step h hlist (.list rfl sampleRootScan_found rfl)
  exact ⟨buffers, .step hlisted (hfinish hends) (.finish rfl hread sampleEnding_started hbuffers), hthere⟩

end

/-- A link that is created before its directory is read, and whose event is handled meanwhile, is in the index. -/
theorem reachable_holds_sample : ∃ s buf,
    Reachable LftManager.utf8 ["data".toList] (StepOk LftManager.utf8 ["data".toList]) s ∧ s.scan = none ∧
    s.queue = [] ∧ s.files [[97]] = some .symlink ∧ s.buffers.fsBufMap.lookup "/data".toList = some buf ∧
    Holds LftManager.utf8 (s.buffers.content buf) s.files.shape := by
  have hahead : ∀ q ∈ sampleLink.paths, Scan.Ahead ⟨fun _ => none⟩ q.dropLast := fun q _ =>
    ⟨[], List.nil_prefix, .inl rfl, rfl⟩
  have hqueued : Reachable LftManager.utf8 ["data".toList] (StepOk LftManager.utf8 ["data".toList])
      ⟨sampleLink.apply sampleFiles, [⟨sampleLink, true⟩], sampleBuffers, some ⟨fun _ => none⟩⟩ :=
    .step (a := .operate sampleLink) (.initial sampleFiles_closed sampleBuffers)
      ⟨Watched.sampleLink_legal, fun hop => hop.elim⟩ (.operate ⟨fun _ => ⟨_, rfl, hahead⟩, fun _ => rfl⟩)
  have hhandled : Reachable LftManager.utf8 ["data".toList] (StepOk LftManager.utf8 ["data".toList])
      ⟨sampleLink.apply sampleFiles, [], sampleBuffers, some ⟨fun _ => none⟩⟩ :=
    .step (a := .handle (Watched.sampleHost false)) hqueued
      ⟨fun hdone => (nomatch hdone), fun _ o ho => Option.some.inj ho ▸ rfl, fun hdone => (nomatch hdone)⟩
      (.handle rfl (sampleBuffers_ignores (.insert (Watched.sampleHost_below false))))
  obtain ⟨buffers, hdone, -⟩ := sample_finished (sample_root hhandled ⟨sampleScan_lists.1, trivial⟩)
    ⟨sampleScan_lists.2, trivial⟩ fun hends =>
      ⟨fun scan hscan => Option.some.inj hscan ▸ hends, fun o ho => (nomatch ho)⟩
  obtain ⟨buf, hbuf, -, hholds⟩ := reachable_holds hdone rfl
  exact ⟨_, buf, hdone, rfl, rfl, rfl, hbuf, hholds rfl⟩

/-- The link is deleted again. -/
def sampleDelete : FileOp := .delete [[97]] .symlink

/-- A link that is deleted when its directory has been read, and whose event is handled before the build finishes,
stays in the index. -/
theorem reachable_not_holds : ∃ s buf,
    Reachable LftManager.utf8 ["data".toList] (fun s a => s.Ready LftManager.utf8 ["data".toList] a) s ∧
    s.scan = none ∧ s.queue = [] ∧ s.buffers.fsBufMap.lookup "/data".toList = some buf ∧
    ¬ Holds LftManager.utf8 (s.buffers.content buf) s.files.shape := by
  have hlegal : sampleDelete.Legal (sampleLink.apply sampleFiles) := by
    refine ⟨by decide, rfl, fun x => ?_⟩
    simp [sampleLink, FileOp.apply, sampleFiles]
  have hroot : Reachable LftManager.utf8 ["data".toList] (fun s a => s.Ready LftManager.utf8 ["data".toList] a)
      ⟨sampleLink.apply sampleFiles, [], sampleBuffers, some sampleRootScan⟩ :=
    sample_root (.initial (Watched.sampleLink_legal.closed sampleFiles_closed) sampleBuffers) sampleScan_lists.1
  have hqueued : Reachable LftManager.utf8 ["data".toList] (fun s a => s.Ready LftManager.utf8 ["data".toList] a)
      ⟨sampleDelete.apply (sampleLink.apply sampleFiles), [⟨sampleDelete, false⟩], sampleBuffers,
        some sampleRootScan⟩ := by
    refine .step (a := .operate sampleDelete) hroot hlegal (.operate ⟨fun hfalse => absurd hfalse (by simp), ?_⟩)
    rintro ⟨scan, hscan, hall⟩
    obtain rfl := Option.some.inj hscan
    exact absurd (hall [[97]] (List.mem_singleton_self _)) not_ahead_sampleRootScan
  have hhandled : Reachable LftManager.utf8 ["data".toList] (fun s a => s.Ready LftManager.utf8 ["data".toList] a)
      ⟨sampleDelete.apply (sampleLink.apply sampleFiles), [], sampleBuffers, some sampleRootScan⟩ :=
    .step (a := .handle (Watched.sampleHost false)) hqueued (fun hdone => absurd hdone (by simp))
      (.handle rfl (sampleBuffers_ignores (.remove (Watched.sampleHost_below false))))
  have hlists : Files.Lists (sampleDelete.apply (sampleLink.apply sampleFiles)) [[97, 97]] [] := by
    refine sampleScan_lists.2.congr fun x => FileOp.apply_of_not_meets ?_
    rw [sampleDelete, FileOp.meets_delete]
    simp
  obtain ⟨buffers, hdone, hbuf, hrep⟩ := sample_finished hhandled hlists fun hends scan hscan =>
    Option.some.inj hscan ▸ hends
  refine ⟨_, 8, hdone, rfl, rfl, hbuf, ?_⟩
  rintro ⟨root, t, hrep', -, -, hkind⟩
  obtain rfl : _ = root := hrep.getRootPath_eq.symm.trans hrep'.getRootPath_eq
  have heq := hrep.kindAt_unique hrep' [[97]]
  rw [hkind] at heq
  exact absurd (show some false = (none : Option Bool) from heq) (by simp)

end Building

end DeepinAnything.Server
