import Mathlib.Data.Nat.Bitwise
import DeepinAnything.EventMerge.Basic

/-!
# Events from the kernel (`eventsource_genl.cpp`)

The server gets the events of the kernel module as netlink messages. `handleMsg` looks up the mount
point of the device, joins the two halves of a rename through `rename_from`, and leaves the event in a
buffer for `getEvent`. A message can be lost or come for a device that is not known (yet), so the
halves of a rename may come alone.

A local `char *` that no branch has set is a value of its own here, `unset`; to use it is an error.
-/

namespace DeepinAnything.Server

open ByteMem EventMerge

/-! ## Strings and codes -/

/-- A local `char *`. -/
inductive CString where
  | unset
  | null
  | str (bytes : Bytes)
deriving DecidableEq, Repr

/-- The string `/`. -/
def rootDir : Bytes := [47]

def sizeofBuf : ℕ := 4096 * 2

/-- The action with a number. -/
def actionOfCode : ℕ → Option Action
  | 0 => some .newFile
  | 1 => some .newLink
  | 2 => some .newSymlink
  | 3 => some .newFolder
  | 4 => some .delFile
  | 5 => some .delFolder
  | 6 => some .renameFile
  | 7 => some .renameFolder
  | 8 => some .renameFromFile
  | 9 => some .renameToFile
  | 10 => some .renameFromFolder
  | 11 => some .renameToFolder
  | 12 => some .mount
  | 13 => some .unmount
  | _ => none

theorem actionOfCode_eq_some {n : ℕ} {a : Action} : actionOfCode n = some a ↔ n = a.code := by
  constructor
  · intro h
    unfold actionOfCode at h
    split at h <;> first | (obtain rfl := Option.some.inj h; rfl) | simp at h
  · rintro rfl
    cases a <;> rfl

/-- `MKDEV` -/
def mkdev (ma mi : ℕ) : ℕ := ma <<< 8 ||| mi

/-! ## The mount table -/

/-- A line of `/proc/self/mountinfo`. The source may be empty; the other parts are there, and have something in
them that is no white space, so that `sscanf` finds all it asks for in the line itself. -/
structure MountLine where
  major : ℕ
  minor : ℕ
  root : Bytes
  mountPoint : Bytes
  options : Bytes
  optional : List Bytes
  type : Bytes
  source : Bytes
  superOptions : Bytes
  nonblank : ∀ w ∈ [root, mountPoint, options, type, superOptions], ∃ c ∈ w, isspace c = false

namespace MountLine

/-- The parts of the line behind the device number. -/
def parts (m : MountLine) : List Bytes :=
  [m.root, m.mountPoint, m.options] ++ m.optional ++ [[45], m.type, m.source, m.superOptions]

/-- The line behind the device number. The kernel escapes blanks, tabs and newlines in the parts, and no other white
space. -/
def text (m : MountLine) : Bytes := [32].intercalate m.parts

/-- The words of a text as `sscanf` has them: what stands between white space. -/
def wordsOf (text : Bytes) : List Bytes := (text.splitOnP isspace).filter (!·.isEmpty)

/-- `%250s`: at most 250 characters of the next word. -/
def scanWord : List Bytes → Option (Bytes × List Bytes)
  | [] => none
  | w :: ws => some (if w.length ≤ 250 then (w, ws) else (w.take 250, w.drop 250 :: ws))

/-- `%*s` -/
def skipWord : List Bytes → Option (List Bytes)
  | [] => none
  | _ :: ws => some ws

/-- What `sscanf` reads of a line: the root, the mount point and the type. -/
def scan (m : MountLine) : Option (Bytes × Bytes × Bytes) := do
  let (root, ws) ← scanWord (wordsOf m.text)
  let (mp, ws) ← scanWord ws
  let ws ← skipWord ws
  let ws ← skipWord ws
  let ws ← skipWord ws
  let (type, _) ← scanWord ws
  pure (root, mp, type)

end MountLine

/-- The string `fuse.dlnfs`. -/
def fuseDlnfsType : Bytes := [102, 117, 115, 101, 46, 100, 108, 110, 102, 115]

/-- The loop of `updatePartitions` over the lines. -/
def insertPartitions : (ℕ → Option Bytes) → List MountLine → ℕ → Option Bytes
  | partitions, [] => partitions
  | partitions, m :: lines =>
    match m.scan with
    | none => partitions
    | some (root, mp, type) =>
      if m.major = 0 ∧ type ≠ fuseDlnfsType then insertPartitions partitions lines
      else if root = rootDir then
        insertPartitions (Function.update partitions (mkdev m.major m.minor) (some mp)) lines
      else insertPartitions partitions lines

/-! ## Messages -/

/-- The attributes of a message that has been parsed. -/
structure Attrs where
  act : Option ℕ
  cookie : Option ℕ
  major : Option ℕ
  minor : Option ℕ
  path : Option Bytes
deriving DecidableEq, Repr

/-- `EventSource_GENL`. The string at `buf` is `src`; `newMsg`, `act`, `src` and `dst` are what
`getEvent` hands on. -/
structure EventSource where
  renameFrom : ℕ → Option Bytes
  partitions : ℕ → Option Bytes
  newMsg : Bool
  act : ℕ
  src : Bytes
  dst : Option Bytes

namespace EventSource

variable (s : EventSource)

/-- `updatePartitions`; without lines if the file cannot be opened. -/
def updatePartitions (mountInfo : Option (List MountLine)) : EventSource :=
  match mountInfo with
  | none => s
  | some lines => { s with partitions := insertPartitions (fun _ => none) lines }

/-- The constructor. -/
def initial (mountInfo : Option (List MountLine)) : EventSource :=
  updatePartitions ⟨fun _ => none, fun _ => none, false, 255, [], none⟩ mountInfo

/-- `saveData`, which says whether the event has been saved. Testing an unset destination is an
error. -/
def saveData (act : ℕ) (root : Option Bytes) (src : Bytes) (dst : CString) :
    Option (EventSource × Bool) :=
  let root := root.getD []
  match dst with
  | .unset => none
  | .str dst =>
    if root.length * 2 + src.length + dst.length + 2 > sizeofBuf then some (s, false)
    else some ({ s with act := act, src := root ++ src, dst := some (root ++ dst) }, true)
  | .null =>
    if root.length + src.length + 1 > sizeofBuf then some (s, false)
    else some ({ s with act := act, src := root ++ src, dst := none }, true)

/-- The end of `handleMsg`. -/
def save (act cookie : ℕ) (root : Option Bytes) (src : Bytes) (dst : CString) : Option EventSource := do
  let (s, saved) ← s.saveData act root src dst
  let s := if saved then { s with newMsg := true } else s
  pure <| if act = Action.renameFile.code ∨ act = Action.renameFolder.code then
    { s with renameFrom := Function.update s.renameFrom cookie none } else s

/-- `_root` for the device: nothing if it is not known, and a null pointer for `/`. -/
def rootOf (major minor : ℕ) : Option (Option Bytes) :=
  (s.partitions (mkdev major minor)).map fun root => if root = rootDir then none else some root

/-- The `switch` of `handleMsg`. -/
def dispatch (mountInfo : Option (List MountLine)) (act cookie : ℕ) (root : Option Bytes)
    (src : Bytes) : Option EventSource :=
  match actionOfCode act with
  | some .newFile | some .newSymlink | some .newLink | some .newFolder | some .delFile
  | some .delFolder => s.save act cookie root src .null
  | some .renameFromFile | some .renameFromFolder =>
    some { s with renameFrom := Function.update s.renameFrom cookie (some src) }
  | some .renameToFile | some .renameToFolder =>
    match s.renameFrom cookie with
    | some source => s.save
        (if act = Action.renameToFile.code then Action.renameFile.code else Action.renameFolder.code)
        cookie root source (.str src)
    | none => s.save act cookie root src .unset
  | some .mount | some .unmount => some (s.updatePartitions mountInfo)
  | some .renameFile | some .renameFolder | none => some s

/-- `handleMsg` of a message, which may fail to parse; `mountInfo` is the mount table at that time. -/
def handleMsg (mountInfo : Option (List MountLine)) (msg : Option Attrs) : Option EventSource :=
  let s := { s with newMsg := false }
  match msg with
  | some ⟨some act, some cookie, some major, some minor, some src⟩ =>
    if act < Action.mount.code then
      match s.rootOf major minor with
      | none => some s
      | some root => s.dispatch mountInfo act cookie root src
    else s.dispatch mountInfo act cookie none src
  | _ => some s

end EventSource

/-! ## What a message brings -/

/-- A message that is about a file of a known device. -/
structure Received where
  action : Action
  cookie : ℕ
  root : Option Bytes
  path : Bytes
deriving DecidableEq, Repr

namespace Received

/-- First and second halves of renames. -/
def isFrom (r : Received) : Bool := r.action = .renameFromFile || r.action = .renameFromFolder

def isTo (r : Received) : Bool := r.action = .renameToFile || r.action = .renameToFolder

/-- A path of the device with its mount point. -/
def full (r : Received) (path : Bytes) : Bytes := r.root.getD [] ++ path

/-- The code of the rename that a second half completes. -/
def renamed (r : Received) : ℕ :=
  if r.action = .renameToFile then Action.renameFile.code else Action.renameFolder.code

/-- The two paths of a rename fit into the buffer. -/
def Fits (r : Received) (source : Bytes) : Prop :=
  (r.root.getD []).length * 2 + source.length + r.path.length + 2 ≤ sizeofBuf

end Received

namespace EventSource

variable {s s' : EventSource} {mountInfo : Option (List MountLine)} {msg : Option Attrs} {r : Received}

/-- A new mount table changes nothing else. -/
theorem updatePartitions_frame (s : EventSource) (mountInfo : Option (List MountLine)) :
    (s.updatePartitions mountInfo).newMsg = s.newMsg ∧
      (s.updatePartitions mountInfo).renameFrom = s.renameFrom := by
  cases mountInfo <;> exact ⟨rfl, rfl⟩

/-- What passes the checks of `handleMsg` before its `switch`. -/
def received (s : EventSource) (msg : Option Attrs) : Option Received :=
  match msg with
  | some ⟨some act, some cookie, some major, some minor, some path⟩ =>
    if act < Action.mount.code then
      (s.rootOf major minor).bind fun root =>
        (actionOfCode act).map fun action => ⟨action, cookie, root, path⟩
    else none
  | _ => none

theorem handleMsg_of_received (h : s.received msg = some r) :
    s.handleMsg mountInfo msg =
      { s with newMsg := false }.dispatch mountInfo r.action.code r.cookie r.root r.path := by
  unfold received at h
  split at h
  · rename_i act cookie major minor path
    split at h
    · rename_i hlt
      obtain ⟨root, hroot, h⟩ := Option.bind_eq_some_iff.mp h
      obtain ⟨action, haction, rfl⟩ := Option.map_eq_some_iff.mp h
      obtain rfl := actionOfCode_eq_some.mp haction
      unfold handleMsg
      simp only
      rw [if_pos hlt, show rootOf { s with newMsg := false } major minor = some root from hroot]
    · simp at h
  · simp at h

/-- Any other message publishes nothing and records nothing. -/
theorem handleMsg_of_not_received (mountInfo : Option (List MountLine))
    (h : s.received msg = none) :
    ∃ s', s.handleMsg mountInfo msg = some s' ∧ s'.newMsg = false ∧ s'.renameFrom = s.renameFrom := by
  unfold received at h
  unfold handleMsg
  simp only
  split at h
  · rename_i act cookie major minor path
    split at h
    · rename_i hlt
      rw [if_pos hlt]
      cases hroot : s.rootOf major minor with
      | none =>
        rw [show rootOf { s with newMsg := false } major minor = none from hroot]
        exact ⟨_, rfl, rfl, rfl⟩
      | some root =>
        rw [hroot, Option.bind_some, Option.map_eq_none_iff] at h
        rw [show rootOf { s with newMsg := false } major minor = some root from hroot]
        simp only [dispatch, h]
        exact ⟨_, rfl, rfl, rfl⟩
    · rename_i hlt
      rw [if_neg hlt]
      unfold dispatch
      cases haction : actionOfCode act with
      | none => exact ⟨_, rfl, rfl, rfl⟩
      | some action =>
        rw [actionOfCode_eq_some] at haction
        subst haction
        cases action <;> simp only [Action.code] at hlt <;>
          first | exact absurd (by decide) hlt | exact ⟨_, rfl, updatePartitions_frame _ mountInfo⟩
  · exact ⟨_, rfl, rfl, rfl⟩

/-- An action that is no half of a rename leaves the records alone, and what is published has no
destination. -/
theorem handleMsg_of_single (mountInfo : Option (List MountLine)) (h : s.received msg = some r)
    (hfrom : r.isFrom = false)
    (hto : r.isTo = false) : ∃ s', s.handleMsg mountInfo msg = some s' ∧ s'.renameFrom = s.renameFrom ∧
      (s'.newMsg = true → s'.act = r.action.code ∧ s'.src = r.full r.path ∧ s'.dst = none) := by
  have hsave : ∀ act : ℕ, act ≠ Action.renameFile.code → act ≠ Action.renameFolder.code →
      ∃ s', save { s with newMsg := false } act r.cookie r.root r.path .null = some s' ∧
        s'.renameFrom = s.renameFrom ∧
        (s'.newMsg = true → s'.act = act ∧ s'.src = r.full r.path ∧ s'.dst = none) := by
    intro act hfile hfolder
    unfold save saveData
    by_cases hsize : (r.root.getD []).length + r.path.length + 1 > sizeofBuf
    · simp [hsize, hfile, hfolder]
    · simp [hsize, hfile, hfolder, Received.full]
  rw [handleMsg_of_received h]
  rcases r with ⟨action, cookie, root, path⟩
  cases action with
  | newFile | newLink | newSymlink | newFolder | delFile | delFolder =>
    exact hsave _ (by simp [Action.code]) (by simp [Action.code])
  | renameFile | renameFolder => exact ⟨_, rfl, rfl, by simp⟩
  | renameFromFile | renameFromFolder => simp [Received.isFrom] at hfrom
  | renameToFile | renameToFolder => simp [Received.isTo] at hto
  | mount | unmount =>
    obtain ⟨hnew, hrename⟩ := updatePartitions_frame { s with newMsg := false } mountInfo
    exact ⟨_, rfl, hrename, fun hmsg => by simp [hnew] at hmsg⟩

/-- A first half is recorded. -/
theorem handleMsg_of_from (h : s.received msg = some r) (hfrom : r.isFrom = true) :
    s.handleMsg mountInfo msg = some { s with
      newMsg := false, renameFrom := Function.update s.renameFrom r.cookie (some r.path) } := by
  rw [handleMsg_of_received h]
  rcases r with ⟨action, cookie, root, path⟩
  cases action <;> first | rfl | simp [Received.isFrom] at hfrom

/-- A second half joins the first half that is recorded, if the buffer has room for both paths; without
a record the destination is used unset. -/
theorem handleMsg_of_to (h : s.received msg = some r) (hto : r.isTo = true) :
    s.handleMsg mountInfo msg = (s.renameFrom r.cookie).map fun source =>
      if (r.root.getD []).length * 2 + source.length + r.path.length + 2 ≤ sizeofBuf then
        { s with
          newMsg := true, act := r.renamed, src := r.full source, dst := some (r.full r.path)
          renameFrom := Function.update s.renameFrom r.cookie none }
      else { s with
        newMsg := false, renameFrom := Function.update s.renameFrom r.cookie none } := by
  rw [handleMsg_of_received h]
  rcases r with ⟨action, cookie, root, path⟩
  have hdispatch : dispatch { s with newMsg := false } mountInfo action.code cookie root path =
      match s.renameFrom cookie with
      | some source => save { s with newMsg := false } (Received.renamed ⟨action, cookie, root, path⟩)
          cookie root source (.str path)
      | none => none := by
    cases action with
    | renameToFile | renameToFolder => rfl
    | _ => simp [Received.isTo] at hto
  rw [hdispatch]
  cases hsource : s.renameFrom cookie with
  | none => rfl
  | some source =>
    have hrenamed : Received.renamed ⟨action, cookie, root, path⟩ = Action.renameFile.code ∨
        Received.renamed ⟨action, cookie, root, path⟩ = Action.renameFolder.code := by
      unfold Received.renamed
      split
      · exact .inl rfl
      · exact .inr rfl
    rw [Option.map_some]
    unfold save saveData
    by_cases hsize : (root.getD []).length * 2 + source.length + path.length + 2 ≤ sizeofBuf
    · simp [hrenamed, hsize, Nat.not_lt.mpr hsize, Received.full]
    · simp [hrenamed, hsize, Nat.not_le.mp hsize]

end EventSource

/-! ## Sessions -/

/-- The event source, and the messages about files of known devices that it has handled, the latest
one first. -/
structure Session where
  source : EventSource
  taken : List Received

/-- The path that is on record for a cookie: that of the last first half, if no second half has come
since. -/
def recorded : List Received → ℕ → Option Bytes
  | [], _ => none
  | r :: older, cookie =>
    if r.cookie = cookie ∧ r.isFrom then some r.path
    else if r.cookie = cookie ∧ r.isTo then none
    else recorded older cookie

namespace Session

variable {s s' : Session} {mountInfo : Option (List MountLine)} {msg : Option Attrs}

/-- Every second half of a rename has its first half on record, and the buffer has room for the two
paths. -/
def MsgOk (s : Session) (msg : Option Attrs) : Prop :=
  ∀ r ∈ s.source.received msg, r.isTo →
    ∃ source ∈ recorded s.taken r.cookie, r.Fits source

/-- What handling a message should come to. A second half with a record is published as a rename, and
the record goes; without one it is not published with a destination. What is published for another
message is a change without a destination, and first halves are not published. -/
def Answers (s : Session) (msg : Option Attrs) (s' : EventSource) : Prop :=
  match s.source.received msg with
  | none => s'.newMsg = false
  | some r =>
    if r.isTo then
      match recorded s.taken r.cookie with
      | some source => s'.newMsg = true ∧ s'.act = r.renamed ∧ s'.src = r.full source ∧
          s'.dst = some (r.full r.path) ∧ s'.renameFrom r.cookie = none
      | none => s'.newMsg = true → s'.dst = none
    else if r.isFrom then s'.newMsg = false
    else s'.newMsg = true → s'.act = r.action.code ∧ s'.src = r.full r.path ∧ s'.dst = none

/-- The sessions whose messages meet the condition. -/
inductive Reachable : Session → Prop
  | initial (mountInfo : Option (List MountLine)) : Reachable ⟨.initial mountInfo, []⟩
  | step {s : Session} {source : EventSource} (hs : Reachable s)
      (mountInfo : Option (List MountLine)) {msg : Option Attrs} (hok : s.MsgOk msg)
      (hstep : s.source.handleMsg mountInfo msg = some source) :
      Reachable ⟨source, (s.source.received msg).toList ++ s.taken⟩

/-- The map of the event source has what is on record. -/
theorem Reachable.renameFrom_eq (h : Reachable s) (cookie : ℕ) :
    s.source.renameFrom cookie = recorded s.taken cookie := by
  induction h generalizing cookie with
  | initial mountInfo =>
    exact congrFun (EventSource.updatePartitions_frame _ mountInfo).2 cookie
  | @step s source hs mountInfo msg hok hstep ih =>
    cases hreceived : s.source.received msg with
    | none =>
      obtain ⟨s', hs', -, hrename⟩ := EventSource.handleMsg_of_not_received mountInfo hreceived
      obtain rfl := Option.some.inj (hs'.symm.trans hstep)
      exact (congrFun hrename cookie).trans (ih cookie)
    | some r =>
      show source.renameFrom cookie = recorded (r :: s.taken) cookie
      rw [recorded]
      by_cases hfrom : r.isFrom = true
      · rw [EventSource.handleMsg_of_from hreceived hfrom] at hstep
        obtain rfl := Option.some.inj hstep
        simp only [hfrom, and_true]
        by_cases hc : r.cookie = cookie
        · subst hc
          rw [if_pos rfl, Function.update_self]
        · have hto : r.isTo = false := by
            rcases r with ⟨action, cookie, root, path⟩
            cases action <;> simp [Received.isFrom] at hfrom <;> rfl
          rw [if_neg hc, if_neg (by simp [hc]), Function.update_of_ne (Ne.symm hc)]
          exact ih cookie
      rw [Bool.not_eq_true] at hfrom
      by_cases hto : r.isTo = true
      · rw [EventSource.handleMsg_of_to hreceived hto] at hstep
        obtain ⟨from_path, hsource, rfl⟩ := Option.map_eq_some_iff.mp hstep
        simp only [hfrom, hto, and_true, Bool.false_eq_true, and_false, if_false]
        have hupdate : Function.update s.source.renameFrom r.cookie none cookie =
            if r.cookie = cookie then none else recorded s.taken cookie := by
          by_cases hc : r.cookie = cookie
          · subst hc
            rw [if_pos rfl, Function.update_self]
          · rw [if_neg hc, Function.update_of_ne (Ne.symm hc)]
            exact ih cookie
        rw [← hupdate]
        split <;> rfl
      · rw [Bool.not_eq_true] at hto
        obtain ⟨s', hs', hrename, -⟩ := EventSource.handleMsg_of_single mountInfo hreceived hfrom hto
        obtain rfl := Option.some.inj (hs'.symm.trans hstep)
        simp only [hfrom, hto, Bool.false_eq_true, and_false, if_false]
        exact (congrFun hrename cookie).trans (ih cookie)

/-- In every such session, and for every next message: `handleMsg` uses no unset variable and answers
the message as it should if and only if the message meets the condition. -/
theorem reachable_answers_iff (h : Reachable s) (mountInfo : Option (List MountLine))
    (msg : Option Attrs) :
    (∃ s', s.source.handleMsg mountInfo msg = some s' ∧ s.Answers msg s') ↔ s.MsgOk msg := by
  unfold Answers MsgOk
  cases hreceived : s.source.received msg with
  | none =>
    obtain ⟨s', hs', hnew, -⟩ := EventSource.handleMsg_of_not_received mountInfo hreceived
    exact iff_of_true ⟨s', hs', hnew⟩ (by simp)
  | some r =>
    by_cases hto : r.isTo = true
    · simp only [hto, if_true, Option.mem_def, Option.some.injEq, forall_eq', forall_const]
      rw [EventSource.handleMsg_of_to hreceived hto, h.renameFrom_eq]
      cases hsource : recorded s.taken r.cookie with
      | none => simp
      | some source =>
        by_cases hfits : (r.root.getD []).length * 2 + source.length + r.path.length + 2 ≤ sizeofBuf
        · simp [Received.Fits, hfits]
        · simp [Received.Fits, hfits]
    · refine iff_of_true ?_ fun r' hr' hto' => ?_
      · simp only [hto, if_false, Bool.false_eq_true]
        by_cases hfrom : r.isFrom = true
        · exact ⟨_, EventSource.handleMsg_of_from hreceived hfrom, by simp [hfrom]⟩
        · obtain ⟨s', hs', -, hmsg⟩ :=
            EventSource.handleMsg_of_single mountInfo hreceived (by simpa using hfrom) (by simpa using hto)
          exact ⟨s', hs', by simpa [hfrom] using hmsg⟩
      · obtain rfl := Option.some.inj hr'
        exact absurd hto' hto

/-- The sample device 8:1 is mounted at `/`: `8:1 / / rw shared:1 - ext4 /dev/sda1 rw` -/
def sampleMount : MountLine where
  major := 8
  minor := 1
  root := rootDir
  mountPoint := rootDir
  options := [114, 119]
  optional := [[115, 104, 97, 114, 101, 100, 58, 49]]
  type := [101, 120, 116, 52]
  source := [47, 100, 101, 118, 47, 115, 100, 97, 49]
  superOptions := [114, 119]
  nonblank := by decide

/-- The halves of a rename of `/a` to `/b` on the sample device. -/
def sampleFrom : Attrs := ⟨some 8, some 7, some 8, some 1, some [47, 97]⟩

def sampleTo : Attrs := ⟨some 9, some 7, some 8, some 1, some [47, 98]⟩

theorem reachable_answers_iff_sample : ∃ source,
    (EventSource.initial (some [sampleMount])).handleMsg none (some sampleFrom) = some source ∧
    ∃ s', source.handleMsg none (some sampleTo) = some s' ∧
      Session.Answers ⟨source, [⟨.renameFromFile, 7, none, [47, 97]⟩]⟩ (some sampleTo) s' := by
  refine ⟨_, rfl, ?_⟩
  have h : Reachable ⟨_, [⟨.renameFromFile, 7, none, [47, 97]⟩]⟩ :=
    @Reachable.step _ _ (.initial (some [sampleMount])) none (some sampleFrom) ?_ rfl
  · refine (reachable_answers_iff h none (some sampleTo)).mpr fun r hr _ => ?_
    obtain rfl := Option.some.inj hr
    exact ⟨[47, 97], rfl, show _ ≤ _ by decide⟩
  · intro r hr hto
    obtain rfl := Option.some.inj hr
    exact absurd hto (by decide)

/-- A second half comes alone: its destination is used unset. -/
theorem reachable_unset : Reachable ⟨.initial (some [sampleMount]), []⟩ ∧
    (EventSource.initial (some [sampleMount])).handleMsg none (some sampleTo) = none :=
  ⟨.initial _, rfl⟩

end Session

end DeepinAnything.Server
