import DeepinAnything.Server.FileEvents
import DeepinAnything.Walkdir.Shown

/-!
# Events that are handled late

Between an operation on a file and the handling of its event other operations take place. What has been created is
entered as what `QFileInfo` takes its path for by then, not as what the event says. As long as the two agree, and the
index can take the events, nothing depends on the delay: the index and the events that are still queued make up the
files that there are (`LeadTo`), and when the queue is empty the index is the one that `build_fstree` would build.
-/

namespace DeepinAnything.Server

open ByteMem EventMerge OrderedForest OrderedForest.Forest

/-! ## Operations -/

/-- An operation on the files below a mount point, with the kind of the file. -/
inductive FileOp where
  | create (q : List Bytes) (kind : FileKind)
  | delete (q : List Bytes) (kind : FileKind)
  | rename (src dst : List Bytes) (kind : FileKind)
deriving DecidableEq, Repr

/-- The bytes of the path of a file below the mount point with the names `m`. -/
def Locale.filePath (locale : Locale) (m : List QString) (q : List Bytes) : Bytes :=
  locale.toLocal8Bit (m.flatMap ('/' :: ·)) ++ slash :: joinPath q

namespace FileOp

/-- The file system carries the operation out. A rename may replace a file by a file, and an empty directory by a
directory. -/
def Legal (fs : Files) : FileOp → Prop
  | create q _ => fs q = none ∧ fs q.dropLast = some .dir
  | delete q kind => q ≠ [] ∧ fs q = some kind ∧ ∀ x, fs (q ++ [x]) = none
  | rename src dst kind => dst ≠ [] ∧ ¬ src <+: dst ∧ fs src = some kind ∧ fs dst.dropLast = some .dir ∧
      ∀ k, fs dst = some k → (k = .dir ↔ kind = .dir) ∧ ∀ x, fs (dst ++ [x]) = none

/-- The files after the operation. -/
def apply (fs : Files) : FileOp → Files
  | create q kind => Function.update fs q (some kind)
  | delete q _ => fun p => if q <+: p then none else fs p
  | rename src dst _ => fun p =>
    if dst <+: p then fs (src ++ p.drop dst.length) else if src <+: p then none else fs p

/-- What `getEvent` hands on of the operation. -/
def serverEvent (path : List Bytes → Bytes) : FileOp → ServerEvent
  | create q .file => ⟨Action.newFile.code, path q, none⟩
  | create q .symlink => ⟨Action.newSymlink.code, path q, none⟩
  | create q .dir => ⟨Action.newFolder.code, path q, none⟩
  | delete q kind => ⟨if kind = .dir then Action.delFolder.code else Action.delFile.code, path q, none⟩
  | rename src dst kind =>
    ⟨if kind = .dir then Action.renameFolder.code else Action.renameFile.code, path src, some (path dst)⟩

/-- The pair that stands in the queue for it. -/
def pair (path : List Bytes → Bytes) : FileOp → Bytes × Bytes
  | create q _ => (insertAction, path q)
  | delete q _ => (removeAction, path q)
  | rename src dst _ => (path src, path dst)

/-- What an index is to make of the operation. -/
def event : FileOp → FileEvent
  | create q kind => .insert q (decide (kind = .dir))
  | delete q _ => .remove q
  | rename src dst _ => .rename src dst

/-- The file that stands there afterwards, or did before. -/
def target : FileOp → List Bytes
  | create q _ | delete q _ => q
  | rename _ dst _ => dst

/-- What is made of it where the kind of what has been created is asked of the file system again. -/
def reported (isDir : List Bytes → Bool) : FileOp → FileEvent
  | create q _ => .insert q (isDir q)
  | delete q _ => .remove q
  | rename src dst _ => .rename src dst

/-- What has been created is taken for a directory if and only if it has been created as one. -/
def Seen (isDir : List Bytes → Bool) : FileOp → Prop
  | create q kind => isDir q = decide (kind = .dir)
  | _ => True

variable {fs : Files} {op : FileOp}

theorem Seen.reported_eq {isDir : List Bytes → Bool} (h : op.Seen isDir) : op.reported isDir = op.event := by
  cases op with
  | create q kind => exact congrArg (FileEvent.insert q) h
  | delete q kind => rfl
  | rename src dst kind => rfl

/-- An index of the files admits the event of an operation on them. -/
theorem Legal.possible (h : op.Legal fs) : op.event.Possible fs.shape := by
  cases op with
  | create q kind => exact ⟨by simp [Files.shape, h.1], by simp [Files.shape, h.2]⟩
  | delete q kind => simp [event, FileEvent.Possible, Files.shape, h.2.1]
  | rename src dst kind =>
    obtain ⟨hne, hout, hsrc, hparent, hreplaced⟩ := h
    refine ⟨by simp [Files.shape, hsrc], hne, hout, by simp [Files.shape, hparent], fun hthere => ?_⟩
    obtain ⟨k, hk⟩ : ∃ k, fs dst = some k := by simpa [Files.shape, Option.isSome_iff_exists] using hthere
    obtain ⟨hkind, hempty⟩ := hreplaced k hk
    exact ⟨by simp [Files.shape, hk, hsrc, hkind], fun x => by simp [Files.shape, hempty x]⟩

/-- It becomes an index of the files that the operation makes. -/
theorem Legal.shape_apply (h : op.Legal fs) : (op.apply fs).shape = op.event.apply fs.shape := by
  funext p
  cases op with
  | create q kind =>
    simp only [Files.shape, apply, event, FileEvent.apply, Function.update_apply]
    split <;> rfl
  | delete q kind =>
    have hne : q <+: p → p ≠ [] := by
      rintro hpre rfl
      exact h.1 (List.prefix_nil.mp hpre)
    simp only [Files.shape, apply, event, FileEvent.apply]
    rw [apply_ite (Option.map _)]
    exact if_congr ⟨fun hpre => ⟨hne hpre, hpre⟩, And.right⟩ rfl rfl
  | rename src dst kind =>
    simp only [Files.shape, apply, event, FileEvent.apply]
    rw [apply_ite (Option.map _), apply_ite (Option.map _)]
    rfl

end FileOp

/-! ## The queue -/

/-- The files, the operations whose events are queued, and the manager of the indexes. -/
structure Watched where
  files : Files
  queue : List FileOp
  manager : LftManager FsBuf

/-- An operation takes place, or the first event of the queue is handled, with what the handler is told. -/
inductive Watched.Act where
  | operate (op : FileOp)
  | handle (host : FileHost)

namespace Watched

variable (locale : Locale) (m : List QString) (s : Watched)

/-- `Server::run` pushes the pair of every event, and `onFileChanged` takes it from the queue. -/
def step : Act → Option Watched
  | .operate op => some { s with files := op.apply s.files, queue := s.queue ++ [op] }
  | .handle host =>
    match s.queue with
    | [] => none
    | op :: queue =>
      (s.manager.onFileChanged locale [(host, (op.serverEvent (locale.filePath m)).actionPair)]).map fun manager =>
        { s with queue := queue, manager := manager }

/-- What `QFileInfo` says of a file. -/
def isDirAt (host : FileHost) (q : List Bytes) : Bool := host.isDir (locale.fromLocal8Bit (locale.filePath m q))

/-- The handler of the event is allowed to enter it, the names can be decoded and lead to the mount point, and an
index can take what is reported. -/
structure Handles (host : FileHost) (op : FileOp) : Prop where
  auth : host.checkAuthorization = true
  below : ∃ names, host.Below locale m names op.target
  source : ∀ src dst kind, op = .rename src dst kind → ∃ names, locale.Spells names src
  takes : ∀ buf, s.manager.fsBufMap.lookup (pathString m) = some buf →
    LftManager.Takes (s.manager.content buf) host.heap (op.reported (isDirAt locale m host))

/-- Operations are carried out by the file system, and events are handled with an index that can take them. -/
def Ready (s : Watched) : Act → Prop
  | .operate op => op.Legal s.files
  | .handle host => ∀ op ∈ s.queue.head?, s.Handles locale m host op

/-- When its event is handled, what has been created is taken for what it was. -/
def SeenRight (s : Watched) : Act → Prop
  | .operate _ => True
  | .handle host => ∀ op ∈ s.queue.head?, op.Seen (isDirAt locale m host)

/-- `QFileInfo` takes what is no symbolic link for what it is. -/
def Truthful (s : Watched) : Act → Prop
  | .operate _ => True
  | .handle host => ∀ q k, q ≠ [] → s.files q = some k → k ≠ .symlink → isDirAt locale m host q = decide (k = .dir)

/-- The manager has an index of the mount point that has its files. -/
def Indexed (manager : LftManager FsBuf) (files : Files) : Prop :=
  ∃ buf, manager.fsBufMap.lookup (pathString m) = some buf ∧ Holds locale (manager.content buf) files.shape

/-- The states that are reached from a mount point that has been indexed, with steps that meet a condition. -/
inductive Reachable (ok : Watched → Act → Prop) : Watched → Prop
  | initial {manager : LftManager FsBuf} {files : Files} (h : Indexed locale m manager files) :
      Reachable ok ⟨files, [], manager⟩
  | step {s s' : Watched} {a : Act} (hs : Reachable ok s) (hok : ok s a) (hstep : s.step locale m a = some s') :
      Reachable ok s'

end Watched

/-! ## What is queued -/

/-- The operations, one behind the other, make `K'` of the shape `K`, which admits each of them. -/
def LeadTo : Shape → List FileOp → Shape → Prop
  | K, [], K' => K = K'
  | K, op :: ops, K' => op.event.Possible K ∧ LeadTo (op.event.apply K) ops K'

theorem LeadTo.concat {K K' : Shape} {ops : List FileOp} (h : LeadTo K ops K') {op : FileOp}
    (hop : op.event.Possible K') : LeadTo K (ops ++ [op]) (op.event.apply K') := by
  induction ops generalizing K with
  | nil =>
    obtain rfl : K = K' := h
    exact ⟨hop, rfl⟩
  | cons o ops ih => exact ⟨h.1, ih h.2⟩

/-- The index has the entries that `build_fstree` finds in the files below its root, and of the same kinds. -/
def SameAsBuilt (b : FsBuf) (fs : Files) : Prop :=
  ∀ (env : WalkEnv) fresh capacity b₀ fuel b' pr', newFsBuf fresh capacity b.getRootPath = some b₀ →
    env.Shows b.getRootPath fs → env.buildFstree fuel b₀ = (some false, b', pr') → pr'.failed = false →
    ∃ t t', Represents b b.getRootPath t ∧ Represents b' b.getRootPath t' ∧ t.kindAt = t'.kindAt

/-- An index of the files is one that has what the walk finds. -/
theorem Holds.sameAsBuilt {locale : Locale} {b : FsBuf} {fs : Files} (h : Holds locale b fs.shape) :
    SameAsBuilt b fs := by
  obtain ⟨root, t, hrep, hroot, -, hkind⟩ := h
  obtain rfl := hrep.getRootPath_eq
  intro env fresh capacity b₀ fuel b' pr' hnew hshows hbuild hok
  obtain ⟨w, hrep', hkind'⟩ :=
    hshows.exists_represents (Files.closed_of_shape hkind) hnew hroot.ok.zero hbuild hok
  exact ⟨t, w, hrep, hrep', hkind.trans hkind'.symm⟩

/-! ## Runs -/

/-- `Server::run` pushes the pair of an operation. -/
theorem FileOp.actionPair_serverEvent (path : List Bytes → Bytes) (op : FileOp) :
    (op.serverEvent path).actionPair = op.pair path := by
  cases op with
  | create q kind => cases kind <;> rfl
  | delete q kind => cases kind <;> rfl
  | rename src dst kind => cases kind <;> rfl

namespace Watched

variable {locale : Locale} {m : List QString} {s s' : Watched} {host : FileHost} {op : FileOp}

/-- The pair reports the operation. -/
theorem Handles.reports (h : s.Handles locale m host op) :
    locale.Reports host m (op.reported (isDirAt locale m host))
      (op.serverEvent (locale.filePath m)).actionPair := by
  obtain ⟨names, hbelow⟩ := h.below
  have hpath : locale.toLocal8Bit (pathString (m ++ names)) = locale.filePath m op.target :=
    hbelow.spells.to_pathString m
  rw [FileOp.actionPair_serverEvent]
  cases op with
  | create q kind =>
    have hreports := Locale.Reports.insert hbelow
    have hdir : isDirAt locale m host q = host.isDir (pathString (m ++ names)) := by
      rw [isDirAt, show locale.filePath m q = _ from hpath.symm, locale.from_to]
    rw [← hdir, hpath] at hreports
    exact hreports
  | delete q kind =>
    have hreports := Locale.Reports.remove hbelow
    rw [hpath] at hreports
    exact hreports
  | rename src dst kind =>
    obtain ⟨old, hold⟩ := h.source src dst kind rfl
    have hreports := Locale.Reports.rename hold hbelow
    rw [hpath, hold.to_pathString m] at hreports
    exact hreports

/-- The index of the mount point makes of the event what is reported. -/
theorem Handles.entered (h : s.Handles locale m host op) {buf : ℕ} {K : Shape}
    (hbuf : s.manager.fsBufMap.lookup (pathString m) = some buf) (hholds : Holds locale (s.manager.content buf) K) :
    ∃ manager, s.manager.onFileChanged locale [(host, (op.serverEvent (locale.filePath m)).actionPair)] =
        some manager ∧ manager.fsBufMap = s.manager.fsBufMap ∧
      Holds locale (manager.content buf) ((op.reported (isDirAt locale m host)).replay K) := by
  obtain ⟨ret, b', hrun, hholds', -⟩ := LftManager.exists_entered h.auth h.reports hbuf hholds (h.takes buf hbuf)
  obtain ⟨hmap, hcontent⟩ := LftManager.entered_frame s.manager buf (ret, b')
  refine ⟨(s.manager.entered locale buf (ret, b')).1, ?_, hmap, ?_⟩
  · rw [LftManager.onFileChanged, hrun]
    rfl
  · rw [hcontent, Function.update_self]
    exact hholds'

/-- What holds in a run: the index of the mount point and what is queued make up its files. -/
def Current (locale : Locale) (m : List QString) (s : Watched) : Prop :=
  ∃ K buf, s.manager.fsBufMap.lookup (pathString m) = some buf ∧ Holds locale (s.manager.content buf) K ∧
    LeadTo K s.queue s.files.shape

/-- An operation makes the queue longer. -/
theorem Current.operate (h : s.Current locale m) (hlegal : op.Legal s.files) :
    Current locale m { s with files := op.apply s.files, queue := s.queue ++ [op] } := by
  obtain ⟨K, buf, hbuf, hholds, hleads⟩ := h
  refine ⟨K, buf, hbuf, hholds, ?_⟩
  show LeadTo K (s.queue ++ [op]) (op.apply s.files).shape
  rw [hlegal.shape_apply]
  exact hleads.concat hlegal.possible

/-- An event that is handled goes from the queue into the index. -/
theorem Current.handle {queue : List FileOp} (h : s.Current locale m) (hqueue : s.queue = op :: queue)
    (hhandles : s.Handles locale m host op) (hseen : op.Seen (isDirAt locale m host)) :
    ∃ manager, s.manager.onFileChanged locale [(host, (op.serverEvent (locale.filePath m)).actionPair)] =
      some manager ∧ Current locale m { s with queue := queue, manager := manager } := by
  obtain ⟨K, buf, hbuf, hholds, hleads⟩ := h
  obtain ⟨hpossible, hrest⟩ : op.event.Possible K ∧ LeadTo (op.event.apply K) queue s.files.shape := by
    rwa [hqueue] at hleads
  obtain ⟨manager, hrun, hmap, hholds'⟩ := hhandles.entered hbuf hholds
  refine ⟨manager, hrun, op.event.apply K, buf, by rw [hmap, hbuf], ?_, hrest⟩
  rw [hseen.reported_eq, FileEvent.replay_of_possible hpossible] at hholds'
  exact hholds'

/-- The steps that operations and their events take when what has been created is always taken for what it was. -/
def StepOk (locale : Locale) (m : List QString) (s : Watched) (a : Act) : Prop :=
  s.Ready locale m a ∧ s.SeenRight locale m a

/-- One step keeps it. -/
theorem Current.step (h : s.Current locale m) {a : Act} (hok : s.StepOk locale m a)
    (hstep : s.step locale m a = some s') : s'.Current locale m := by
  cases a with
  | operate op =>
    obtain rfl := Option.some.inj hstep
    exact h.operate hok.1
  | handle host =>
    rw [Watched.step] at hstep
    split at hstep
    · cases hstep
    · rename_i op queue hqueue
      have hop : op ∈ s.queue.head? := by simp [hqueue]
      obtain ⟨manager, hrun, hcurrent⟩ := h.handle hqueue (hok.1 op hop) (hok.2 op hop)
      rw [hrun] at hstep
      obtain rfl := Option.some.inj hstep
      exact hcurrent

theorem Reachable.current (h : Reachable locale m (StepOk locale m) s) : s.Current locale m := by
  induction h with
  | initial h =>
    obtain ⟨buf, hbuf, hholds⟩ := h
    exact ⟨_, buf, hbuf, hholds, rfl⟩
  | step _ hok hstep ih => exact ih.step hok hstep

/-- However late events are handled: in a run in which what has been created is always taken for what it was, the
mount point keeps its index, which with the queued events makes up the files, and is the one that `build_fstree`
would build of them whenever the queue is empty. -/
theorem reachable_sameAsBuilt (h : Reachable locale m (StepOk locale m) s) :
    ∃ buf, s.manager.fsBufMap.lookup (pathString m) = some buf ∧
      (∃ K, Holds locale (s.manager.content buf) K ∧ LeadTo K s.queue s.files.shape) ∧
      (s.queue = [] → SameAsBuilt (s.manager.content buf) s.files) := by
  obtain ⟨K, buf, hbuf, hholds, hleads⟩ := h.current
  refine ⟨buf, hbuf, ⟨K, hholds, hleads⟩, fun hqueue => ?_⟩
  rw [hqueue] at hleads
  rw [show K = s.files.shape from hleads] at hholds
  exact hholds.sameAsBuilt

/-! ## A link to a directory -/

/-- The directory `aa`. -/
def sampleDirTree : Tree := .node [97, 97] .nil .nil

/-- What stands below `/data` then. -/
def sampleFiles : Files := fun q => if q = [] ∨ q = [[97, 97]] then some .dir else none

/-- The index of `/data`. -/
def sampleManager : LftManager FsBuf :=
  { LftManager.sampleIndexes with content := fun _ => imageBuf [47, 100, 97, 116, 97, 47] sampleDirTree 128 }

/-- The link `a` is created. -/
def sampleLink : FileOp := .create [[97]] .symlink

/-- `QFileInfo` takes `aa` for a directory, and the link if it leads to one. -/
def sampleHost (isDir : Bool) : FileHost :=
  { LftManager.sampleFileHost with
    isDir := fun path => path == "/data/aa".toList || isDir && path == "/data/a".toList }

theorem represents_sampleDirTree :
    Represents (imageBuf [47, 100, 97, 116, 97, 47] sampleDirTree 128) [47, 100, 97, 116, 97, 47] sampleDirTree :=
  represents_imageBuf _ _ _ ⟨rfl, rfl, by decide⟩ (by decide) (by decide) (by decide)

theorem kindAt_sampleDirTree : sampleDirTree.kindAt = sampleFiles.shape := by
  funext q
  cases q with
  | nil => rfl
  | cons x xs =>
    rw [kindAt_cons, sampleDirTree, find?, find?]
    by_cases hx : [97, 97] = x
    · cases xs with
      | nil => simp [Files.shape, sampleFiles, hx, Entry.isNode]
      | cons y ys => simp [Files.shape, sampleFiles, hx, kindAt_cons, find?, Entry.kids]
    · simp [Files.shape, sampleFiles, hx, Ne.symm hx]

theorem sampleManager_indexed : Indexed LftManager.utf8 ["data".toList] sampleManager sampleFiles := by
  refine ⟨8, by decide, ?_⟩
  exact ⟨_, _, represents_sampleDirTree, ⟨represents_sampleDirTree.root_ok, by decide⟩, ⟨"/data/".toList, by decide⟩,
    kindAt_sampleDirTree⟩

theorem sampleManager_supplied (isDir : Bool) :
    (FileEvent.insert [[97]] isDir).Supplied (sampleManager.content 8) sampleDirTree FsBuf.freeHeap := by
  refine ⟨by decide, fun d name k hq hd => ?_⟩
  obtain ⟨rfl, hname⟩ := List.append_inj' (show [] ++ [[97]] = d ++ [name] from hq) rfl
  obtain rfl : [97] = name := by simpa using hname
  obtain rfl : sampleDirTree = k := Entry.node.inj (Option.some.inj hd)
  cases isDir <;> decide

theorem sampleLink_addressed (isDir : Bool) :
    (FileEvent.insert [[97]] isDir).Addressed [47, 100, 97, 116, 97, 47] := ⟨by decide, by decide⟩

theorem sampleHost_below (isDir : Bool) :
    (sampleHost isDir).Below LftManager.utf8 ["data".toList] ["a".toList] [[97]] :=
  ⟨⟨by decide, by decide, by decide⟩, by decide, show "/data".toList ≠ [] by decide, rfl⟩

theorem sampleLink_legal : sampleLink.Legal sampleFiles := ⟨rfl, rfl⟩

/-- The states before and after the event of the link is handled. -/
theorem sampleLink_ready (isDir : Bool) (manager : LftManager FsBuf) :
    Ready LftManager.utf8 ["data".toList] ⟨sampleFiles, [], manager⟩ (.operate sampleLink) ∧
      Ready LftManager.utf8 ["data".toList] ⟨sampleLink.apply sampleFiles, [sampleLink], sampleManager⟩
        (.handle (sampleHost isDir)) := by
  refine ⟨sampleLink_legal, fun op hop => ?_⟩
  obtain rfl : sampleLink = op := Option.some.inj hop
  refine ⟨rfl, ⟨_, sampleHost_below isDir⟩, fun _ _ _ heq => (nomatch heq), fun buf hbuf => ?_⟩
  obtain rfl : 8 = buf := Option.some.inj hbuf
  exact ⟨_, _, represents_sampleDirTree, sampleLink_addressed _, trivial, fun _ => sampleManager_supplied _⟩

/-- The link is shown as a link. -/
theorem linkEnv_shows : (WalkEnv.linkEnv [47, 100, 97, 116, 97, 47]).Shows [47, 100, 97, 116, 97, 47]
    (sampleLink.apply sampleFiles) := by
  have hdir : ∀ q, sampleLink.apply sampleFiles q = some .dir → q = [] ∨ q = [[97, 97]] := by
    intro q hq
    simp only [sampleLink, FileOp.apply, Function.update_apply, sampleFiles] at hq
    split at hq
    · cases hq
    · split at hq
      · assumption
      · cases hq
  refine ⟨WalkEnv.linkEnv_sane _, fun q hq => ?_, fun q hq de => ⟨?_, ?_⟩⟩
  · rcases hdir q hq with rfl | rfl <;> decide
  · rintro ⟨-, des, hopen, hmem, -⟩
    rcases hdir q hq with rfl | rfl
    · obtain rfl : [⟨[97, 97], .dir⟩, ⟨[97], .lnk⟩] = des := Option.some.inj hopen
      rcases List.mem_cons.mp hmem with rfl | hmem
      · exact ⟨.dir, by decide, rfl⟩
      · obtain rfl := List.mem_singleton.mp hmem
        exact ⟨.symlink, by decide, rfl⟩
    · obtain rfl : [] = des := Option.some.inj hopen
      cases hmem
  · obtain ⟨name, type⟩ := de
    rintro ⟨k, hk, htype⟩
    obtain rfl : type = k.dType := htype
    simp only [sampleLink, FileOp.apply, Function.update_apply, sampleFiles] at hk
    rcases hdir q hq with rfl | rfl
    · split at hk
      · rename_i hname
        obtain rfl : name = [97] := by simpa using hname
        obtain rfl := Option.some.inj hk
        exact ⟨rfl, _, rfl, by decide, by decide⟩
      · split at hk
        · rename_i hname
          obtain rfl : name = [97, 97] := by simpa using hname
          obtain rfl := Option.some.inj hk
          exact ⟨rfl, _, rfl, by decide, by decide⟩
        · cases hk
    · simp at hk

/-- `build_fstree` ends below `/data`, with an index of what it is shown. -/
theorem linkEnv_builds : ∃ b b' pr', newFsBuf (some ⟨fun _ => 0⟩) (1 <<< 24) [47, 100, 97, 116, 97, 47] = some b ∧
    (WalkEnv.linkEnv [47, 100, 97, 116, 97, 47]).buildFstree 2 b = (some false, b', pr') ∧ pr'.failed = false ∧
    Represents b' [47, 100, 97, 116, 97, 47] (.node [97, 97] .nil (.leaf [97] .nil)) := by
  have hsane := WalkEnv.linkEnv_sane [47, 100, 97, 116, 97, 47]
  have hpcf : ∀ f d n e, (WalkEnv.linkEnv [47, 100, 97, 116, 97, 47]).pcf f d n e = false := fun _ _ _ _ => rfl
  obtain ⟨b, hnew, hcapacity⟩ : ∃ b, newFsBuf (some ⟨fun _ => 0⟩) (1 <<< 24) [47, 100, 97, 116, 97, 47] = some b ∧
      b.capacity = 1 <<< 24 := ⟨_, rfl, rfl⟩
  have h := represents_newFsBuf hnew (by decide)
  have hwalk : (WalkEnv.linkEnv [47, 100, 97, 116, 97, 47]).walkTree walkPath 2 [47, 100, 97, 116, 97, 47] =
      some (.node [97, 97] .nil (.leaf [97] .nil)) := rfl
  have hroom : b.tail + treeSize (.node [97, 97] .nil (.leaf [97] .nil)) < b.capacity := by
    rw [h.tail_eq, h.first_eq, hcapacity]
    decide
  rcases WalkEnv.buildFstree_spec hsane hpcf h 2 rfl with ⟨-, hnone, -⟩ | ⟨w, hw, hc, hok, hrep⟩ | ⟨-, hcap⟩
  · rw [hwalk] at hnone
    cases hnone
  · obtain rfl := Option.some.inj (hwalk.symm.trans hw)
    exact ⟨b, _, _, hnew, Prod.ext hc rfl, hok, hrep⟩
  · exact absurd (hcap _ hwalk) (by omega)

/-- The link is created, and its event is queued. -/
theorem sampleLink_queued {ok : Watched → Act → Prop}
    (hok : ok ⟨sampleFiles, [], sampleManager⟩ (.operate sampleLink)) :
    Reachable LftManager.utf8 ["data".toList] ok ⟨sampleLink.apply sampleFiles, [sampleLink], sampleManager⟩ :=
  .step (.initial sampleManager_indexed) hok rfl

/-- The event of the link is handled. -/
theorem sampleLink_handled {ok : Watched → Act → Prop} {host : FileHost} {manager : LftManager FsBuf}
    (hlegal : ok ⟨sampleFiles, [], sampleManager⟩ (.operate sampleLink))
    (hok : ok ⟨sampleLink.apply sampleFiles, [sampleLink], sampleManager⟩ (.handle host))
    (hrun : sampleManager.onFileChanged LftManager.utf8
      [(host, (sampleLink.serverEvent (LftManager.utf8.filePath ["data".toList])).actionPair)] = some manager) :
    Reachable LftManager.utf8 ["data".toList] ok ⟨sampleLink.apply sampleFiles, [], manager⟩ :=
  .step (sampleLink_queued hlegal) hok (congrArg (Option.map _) hrun)

/-- A link that leads to no directory is entered as a file, and the index stays the one that would be built. -/
theorem reachable_sameAsBuilt_sample : ∃ s buf,
    Reachable LftManager.utf8 ["data".toList] (StepOk LftManager.utf8 ["data".toList]) s ∧
    s.files [[97]] = some .symlink ∧ s.manager.fsBufMap.lookup "/data".toList = some buf ∧
    SameAsBuilt (s.manager.content buf) s.files := by
  obtain ⟨hlegal, hhandle⟩ := sampleLink_ready false sampleManager
  have hready : StepOk LftManager.utf8 ["data".toList] ⟨sampleFiles, [], sampleManager⟩ (.operate sampleLink) :=
    ⟨hlegal, trivial⟩
  have hseen : sampleLink.Seen (isDirAt LftManager.utf8 ["data".toList] (sampleHost false)) :=
    show isDirAt LftManager.utf8 ["data".toList] (sampleHost false) [[97]] = false by decide
  obtain ⟨manager, hrun, -⟩ := (sampleLink_queued hready).current.handle rfl (hhandle sampleLink rfl) hseen
  have hreach := sampleLink_handled hready ⟨hhandle, fun op hop => Option.some.inj hop ▸ hseen⟩ hrun
  obtain ⟨buf, hbuf, -, hsame⟩ := reachable_sameAsBuilt hreach
  exact ⟨_, buf, hreach, rfl, hbuf, hsame rfl⟩

/-- The handler that is told that the link is a directory enters one. -/
theorem sampleLink_entered : ∃ manager t, sampleManager.onFileChanged LftManager.utf8
      [(sampleHost true, (sampleLink.serverEvent (LftManager.utf8.filePath ["data".toList])).actionPair)] =
        some manager ∧
    manager.fsBufMap = sampleManager.fsBufMap ∧
    Represents (manager.content 8) [47, 100, 97, 116, 97, 47] t ∧ t.kindAt [[97]] = some true := by
  have hreports : LftManager.utf8.Reports (sampleHost true) ["data".toList] (.insert [[97]] true)
      (sampleLink.serverEvent (LftManager.utf8.filePath ["data".toList])).actionPair :=
    .insert (sampleHost_below true)
  have hrep := represents_sampleDirTree
  have hroot : RootPath [47, 100, 97, 116, 97, 47] := ⟨hrep.root_ok, by decide⟩
  obtain ⟨ret, b', hcall, hout⟩ := hrep.outcome hroot (sampleLink_addressed true) trivial
    (fun _ => sampleManager_supplied true) []
  have hpossible : (FileEvent.insert [[97]] true).Possible sampleDirTree.kindAt := ⟨by decide, by decide⟩
  obtain rfl := hout.ok_iff.mpr hpossible
  obtain ⟨t, hrep', hkind⟩ := hout.tree
  have hchanged := (LftManager.fileChanged_eq (s := sampleManager) hreports rfl rfl hrep hroot
    ⟨"/data/".toList, by decide⟩).trans (congrArg (Option.map (sampleManager.entered LftManager.utf8 8)) hcall)
  refine ⟨(sampleManager.entered LftManager.utf8 8 (.ok, b')).1, t, ?_, rfl, ?_, ?_⟩
  · rw [LftManager.onFileChanged, hchanged]
    rfl
  · show Represents (Function.update sampleManager.content 8 b' 8) _ t
    rwa [Function.update_self]
  · rw [hkind, FileEvent.replay_of_possible hpossible, FileEvent.apply, Function.update_self]

/-- A link to a directory is entered as a directory, where `build_fstree` has a file. -/
theorem reachable_not_sameAsBuilt : ∃ s buf,
    Reachable LftManager.utf8 ["data".toList] (fun s a => s.Ready LftManager.utf8 ["data".toList] a ∧
      s.Truthful LftManager.utf8 ["data".toList] a) s ∧ s.queue = [] ∧
    s.files [[97]] = some .symlink ∧ s.manager.fsBufMap.lookup "/data".toList = some buf ∧
    ¬ SameAsBuilt (s.manager.content buf) s.files := by
  obtain ⟨hlegal, hhandle⟩ := sampleLink_ready true sampleManager
  have htrue : Truthful LftManager.utf8 ["data".toList] ⟨sampleLink.apply sampleFiles, [sampleLink], sampleManager⟩
      (.handle (sampleHost true)) := by
    intro q k hq hk hlink
    simp only [sampleLink, FileOp.apply, Function.update_apply, sampleFiles, hq, false_or] at hk
    split at hk
    · exact absurd (Option.some.inj hk).symm hlink
    · split at hk
      · rename_i hname
        obtain rfl := Option.some.inj hk
        rw [hname]
        decide
      · cases hk
  obtain ⟨manager, t, hrun, hmap, hrep, hdir⟩ := sampleLink_entered
  refine ⟨_, 8, sampleLink_handled ⟨hlegal, trivial⟩ ⟨hhandle, htrue⟩ hrun, rfl, rfl, by rw [hmap]; rfl, ?_⟩
  intro hsame
  obtain ⟨b, b', pr', hnew, hbuild, hok, hbuilt⟩ := linkEnv_builds
  rw [SameAsBuilt, hrep.getRootPath_eq] at hsame
  obtain ⟨u, u', hu, hu', heq⟩ := hsame _ _ _ _ _ _ _ hnew linkEnv_shows hbuild hok
  rw [hrep.kindAt_unique hu, heq, ← hbuilt.kindAt_unique hu'] at hdir
  exact absurd hdir (by decide)

end Watched

end DeepinAnything.Server
