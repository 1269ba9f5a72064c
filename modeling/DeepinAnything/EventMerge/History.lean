import Mathlib.Data.List.Chain
import DeepinAnything.EventMerge.Run
import DeepinAnything.Lib.PathTree

/-!
# What a series of events says about the tree

An event says that a file or a folder has come into being at its path, has gone, or has been renamed; the
halves of a rename belong together by their cookie. `replay` carries out a series of events on a tree. For
files the halves can be taken apart: the first one takes the file away and the second one makes it, so that
the events become the edits of a log (`VfsEvent.edit`). That is right for every series in which the halves of
file renames follow each other and what is taken away is a file (`Regular.replayed`).
-/

namespace DeepinAnything.EventMerge

open ByteMem PathTree

/-- What an entry of the tree is. -/
inductive Kind where
  | file
  | folder
deriving DecidableEq, Repr

/-- The files and folders of a device. -/
abbrev FileTree := PathTree.Tree UInt8 Kind

/-- The separator in paths. -/
def pathSep : UInt8 := 47

/-! ## Carrying out events -/

/-- A tree, and the first half of a rename whose second half has not come yet. -/
structure World where
  tree : FileTree
  waiting : Option VfsEvent

/-- The tree with a file moved to another path, in place of what stands there. -/
def moveFile (src dst : Bytes) (t : FileTree) : FileTree :=
  Function.update (Function.update t src none) dst (t src)

/-- The event has happened. -/
def World.apply (w : World) (e : VfsEvent) : World :=
  match e.action with
  | .newFile | .newLink | .newSymlink => { w with tree := Function.update w.tree e.path (some .file) }
  | .newFolder => { w with tree := Function.update w.tree e.path (some .folder) }
  | .delFile => { w with tree := Function.update w.tree e.path none }
  | .delFolder => { w with tree := prune pathSep e.path w.tree }
  | .renameFromFile | .renameFromFolder => { w with waiting := some e }
  | .renameToFile =>
    match w.waiting with
    | some f => if f.cookie = e.cookie then ⟨moveFile f.path e.path w.tree, none⟩ else w
    | none => w
  | .renameToFolder =>
    match w.waiting with
    | some f => if f.cookie = e.cookie then ⟨graft pathSep f.path e.path w.tree, none⟩ else w
    | none => w
  | .renameFile | .renameFolder | .mount | .unmount => w

/-- What the events make of a tree. -/
def replay (t : FileTree) (events : List VfsEvent) : World := events.foldl World.apply ⟨t, none⟩

theorem replay_concat (t : FileTree) (events : List VfsEvent) (e : VfsEvent) :
    replay t (events ++ [e]) = (replay t events).apply e := by
  rw [replay, replay, List.foldl_append]
  rfl

/-- What can happen in a tree: what comes into being is not there before, what goes is there, a rename is of
something that is there, a file may replace a file, and the halves of a rename follow each other. -/
def World.Legal (w : World) (e : VfsEvent) : Prop :=
  match e.action with
  | .newFile | .newLink | .newSymlink | .newFolder => w.waiting = none ∧ w.tree e.path = none
  | .delFile | .renameFromFile => w.waiting = none ∧ w.tree e.path = some .file
  | .delFolder | .renameFromFolder => w.waiting = none ∧ w.tree e.path = some .folder
  | .renameToFile => ∃ f, w.waiting = some f ∧ f.action = .renameFromFile ∧ f.cookie = e.cookie ∧
      f.path ≠ e.path ∧ w.tree e.path ≠ some .folder
  | .renameToFolder => ∃ f, w.waiting = some f ∧ f.action = .renameFromFolder ∧ f.cookie = e.cookie ∧
      ¬ Under pathSep f.path e.path ∧ w.tree e.path = none
  | .renameFile | .renameFolder | .mount | .unmount => False

instance (o : Option VfsEvent) (P : VfsEvent → Prop) [DecidablePred P] : Decidable (∃ f, o = some f ∧ P f) :=
  decidable_of_iff (∃ f ∈ o.toList, P f) (by simp)

instance (w : World) (e : VfsEvent) : Decidable (w.Legal e) := by
  unfold World.Legal
  split <;> infer_instance

/-! ## Events as edits -/

/-- The edit that an event stands for, where the halves of file renames stand for themselves. -/
def VfsEvent.edit (e : VfsEvent) : Edit UInt8 Kind :=
  match e.action with
  | .newFile | .newLink | .newSymlink | .renameToFile => .write e.path (some .file)
  | .newFolder => .write e.path (some .folder)
  | .delFile | .renameFromFile => .write e.path none
  | .delFolder => .prune e.path
  | .renameFromFolder => .lift e.cookie e.path
  | .renameToFolder => .land e.cookie e.path
  | .renameFile | .renameFolder | .mount | .unmount => .skip

@[simp] theorem VfsEvent.edit_setPair (pair : Option ℕ) (e : VfsEvent) : (e.setPair pair).edit = e.edit := rfl

/-- A tree as the edits leave it: a file whose rename is not complete has been taken away. -/
def World.settled (w : World) : State UInt8 Kind :=
  match w.waiting with
  | none => ⟨w.tree, none⟩
  | some f =>
    if f.action = .renameFromFile then ⟨Function.update w.tree f.path none, none⟩
    else ⟨w.tree, some (f.cookie, f.path)⟩

namespace World

variable {w : World} {e : VfsEvent}

theorem settled_of_none (h : w.waiting = none) : w.settled = ⟨w.tree, none⟩ := by
  rw [settled, h]

/-- The first half of a file rename that waits is that of a file. -/
def Sound (w : World) : Prop := ∀ f, w.waiting = some f → f.action = .renameFromFile → w.tree f.path = some .file

/-- The halves of file renames come one behind the other, and the first one is about a file. -/
structure Fits (w : World) (e : VfsEvent) : Prop where
  second : e.action = .renameToFile →
    ∃ f, w.waiting = some f ∧ f.action = .renameFromFile ∧ f.cookie = e.cookie ∧ f.path ≠ e.path
  alone : ∀ f, w.waiting = some f → f.action = .renameFromFile → e.action = .renameToFile
  first : e.action = .renameFromFile → w.waiting = none ∧ w.tree e.path = some .file

theorem Legal.fits (h : w.Legal e) : w.Fits e := by
  refine ⟨fun hto => ?_, fun f hf hfrom => ?_, fun hfrom => ?_⟩
  · rw [Legal, hto] at h
    obtain ⟨f, hf, hfrom, hcookie, hpath, -⟩ := h
    exact ⟨f, hf, hfrom, hcookie, hpath⟩
  · rw [Legal] at h
    cases hact : e.action <;> rw [hact] at h <;> simp [hf, hfrom] at h ⊢
  · rw [Legal, hfrom] at h
    exact h

theorem settled_of_first {f : VfsEvent} (hf : w.waiting = some f) (hfrom : f.action = .renameFromFile) :
    w.settled = ⟨Function.update w.tree f.path none, none⟩ := by
  rw [settled, hf]
  exact if_pos hfrom

/-- Where no first half of a file rename waits, the tree is what it is. -/
theorem settled_of_not_first (h : ∀ f, w.waiting = some f → f.action ≠ .renameFromFile) :
    w.settled = ⟨w.tree, w.waiting.map fun f => (f.cookie, f.path)⟩ := by
  rw [settled]
  cases hf : w.waiting with
  | none => rfl
  | some f => exact if_neg (h f hf)

/-- What waits after an event is the event itself, or has waited before. -/
theorem waiting_apply {f : VfsEvent} (hf : (w.apply e).waiting = some f) :
    f = e ∧ (e.action = .renameFromFile ∨ e.action = .renameFromFolder) ∨ w.waiting = some f := by
  rw [apply] at hf
  cases hact : e.action with
  | renameFromFile | renameFromFolder =>
    rw [hact] at hf
    exact .inl ⟨(Option.some.inj hf).symm, by simp⟩
  | renameToFile | renameToFolder =>
    right
    rw [hact] at hf
    simp only at hf
    split at hf
    · split at hf
      · cases hf
      · exact hf
    · exact hf
  | _ =>
    rw [hact] at hf
    exact .inr hf

/-- The second half of a file rename ends the waiting. -/
theorem Fits.waiting_second (h : w.Fits e) (hto : e.action = .renameToFile) : (w.apply e).waiting = none := by
  obtain ⟨f, hf, -, hcookie, -⟩ := h.second hto
  rw [apply, hto, hf]
  simp only
  rw [if_pos hcookie]

/-- An event does what its edit does. -/
theorem settled_apply (hw : w.Sound) (h : w.Fits e) : (w.apply e).settled = e.edit.apply pathSep w.settled := by
  by_cases hto : e.action = .renameToFile
  · obtain ⟨f, hf, hfrom, hcookie, hpath⟩ := h.second hto
    rw [settled_of_first hf hfrom, settled_of_none (h.waiting_second hto), apply, hto, hf, VfsEvent.edit, hto]
    simp only
    rw [if_pos hcookie, moveFile, hw f hf hfrom]
    rfl
  have hnot : ∀ f, w.waiting = some f → f.action ≠ .renameFromFile := fun f hf hfrom => hto (h.alone f hf hfrom)
  by_cases hfrom : e.action = .renameFromFile
  · obtain ⟨hnone, -⟩ := h.first hfrom
    have hwaiting : (w.apply e).waiting = some e := by rw [apply, hfrom]
    rw [settled_of_first hwaiting hfrom, settled_of_none hnone, apply, hfrom, VfsEvent.edit, hfrom]
    rfl
  have hnot' : ∀ f, (w.apply e).waiting = some f → f.action ≠ .renameFromFile := fun f hf => by
    rcases waiting_apply hf with ⟨rfl, -⟩ | hf
    · exact hfrom
    · exact hnot f hf
  rw [settled_of_not_first hnot, settled_of_not_first hnot', apply, VfsEvent.edit]
  cases hact : e.action with
  | renameToFile => exact absurd hact hto
  | renameFromFile => exact absurd hact hfrom
  | renameToFolder =>
    simp only [Edit.apply]
    cases hf : w.waiting with
    | none => simp [hf]
    | some f =>
      simp only [Option.map_some]
      split
      · rfl
      · simp [hf]
  | _ => rfl

theorem Fits.sound (h : w.Fits e) : (w.apply e).Sound := by
  intro f hf hfrom
  rcases waiting_apply hf with ⟨rfl, -⟩ | hf'
  · rw [World.apply, hfrom]
    exact (h.first hfrom).2
  · have hnone := h.waiting_second (h.alone f hf' hfrom)
    rw [hnone] at hf
    cases hf

end World

/-! ## Series of events that fit -/

/-- The halves of file renames follow each other. -/
def Adjacent (e e' : VfsEvent) : Prop :=
  (e.action = .renameFromFile → e'.action = .renameToFile ∧ e.cookie = e'.cookie ∧ e.path ≠ e'.path) ∧
    (e'.action = .renameToFile → e.action = .renameFromFile)

/-- Nothing is written while a part of the tree is lifted, and what is taken away is a file. -/
def Allowed (s : State UInt8 Kind) : Edit UInt8 Kind → Prop
  | .write p v => s.lifted = none ∧ (v = none → s.tree p = some .file)
  | _ => True

/-- Every edit of a log is allowed where it comes. -/
abbrev Lawful : State UInt8 Kind → List (Edit UInt8 Kind) → Prop := Each pathSep Allowed

theorem lawful_append {s : State UInt8 Kind} {log log' : List (Edit UInt8 Kind)} :
    Lawful s (log ++ log') ↔ Lawful s log ∧ Lawful (run pathSep s log) log' := each_append

/-- What can happen is allowed as an edit. -/
theorem World.Legal.allowed {w : World} {e : VfsEvent} (h : w.Legal e) : Allowed w.settled e.edit := by
  rw [World.Legal] at h
  rw [VfsEvent.edit]
  cases hact : e.action with
  | newFile | newLink | newSymlink | newFolder =>
    rw [hact] at h
    rw [World.settled_of_none h.1]
    exact ⟨rfl, fun hv => by cases hv⟩
  | delFile | renameFromFile =>
    rw [hact] at h
    rw [World.settled_of_none h.1]
    exact ⟨rfl, fun _ => h.2⟩
  | renameToFile =>
    rw [hact] at h
    obtain ⟨f, hf, hfrom, -⟩ := h
    rw [World.settled_of_first hf hfrom]
    exact ⟨rfl, fun hv => by cases hv⟩
  | _ => trivial

/-- A write that is left out leaves a log lawful, if no edit behind it reaches the path, but for writes of what has
been there. -/
theorem lawful_cancel {s : State UInt8 Kind} {x : Bytes} {v b : Option Kind} {log : List (Edit UInt8 Kind)}
    (h : Lawful s (.write x v :: log))
    (hlog : ∀ e ∈ log, ¬ e.Touches pathSep x ∨ e = .write x b ∧ b ≠ none) : Lawful s log := by
  refine each_cancel h.1.1 (fun e he => he.imp_right fun he => ⟨b, he.1⟩) (fun s s' e hoff he hallowed => ?_) hlog h
  cases e with
  | write p v' =>
    refine ⟨hoff.lifted_eq ▸ hallowed.1, fun hv => ?_⟩
    rcases he with he | ⟨heq, hb⟩
    · rw [← hoff.tree_eq p he]
      exact hallowed.2 hv
    · obtain ⟨-, rfl⟩ := Edit.write.inj heq
      exact absurd hv hb
  | _ => trivial

/-- A series of events in which the halves of file renames follow each other and every edit is allowed. -/
structure Regular (t : FileTree) (events : List VfsEvent) : Prop where
  chain : events.IsChain Adjacent
  head : ∀ e, events.head? = some e → e.action ≠ .renameToFile
  lawful : Lawful ⟨t, none⟩ (events.map VfsEvent.edit)

variable {t : FileTree} {events events' : List VfsEvent}

theorem Regular.of_append (h : Regular t (events ++ events')) : Regular t events := by
  refine ⟨h.chain.left_of_append, fun e he => h.head e ?_, ?_⟩
  · rw [List.head?_append, he]
    rfl
  · have hlawful := h.lawful
    rw [List.map_append, lawful_append] at hlawful
    exact hlawful.1

/-- What is known of a world that regular events have led to. -/
structure Replayed (t : FileTree) (events : List VfsEvent) (w : World) : Prop where
  settled_eq : w.settled = run pathSep ⟨t, none⟩ (events.map VfsEvent.edit)
  sound : w.Sound
  last_eq : ∀ f, w.waiting = some f → f.action = .renameFromFile → events.getLast? = some f
  waiting_eq : ∀ f, events.getLast? = some f → f.action = .renameFromFile → w.waiting = some f

/-- An event fits in where the events before it have led to. -/
theorem Replayed.fits {w : World} {e : VfsEvent} (hw : Replayed t events w) (h : Regular t (events ++ [e])) :
    w.Fits e := by
  have hlast : ∀ f, events.getLast? = some f → Adjacent f e := fun f hf => by
    have hchain := (List.isChain_append.mp h.chain).2.2
    exact hchain f hf e rfl
  have hallowed : Allowed w.settled e.edit := by
    have hlawful := h.lawful
    rw [List.map_append, lawful_append, ← hw.settled_eq] at hlawful
    exact hlawful.2.1
  refine ⟨fun hto => ?_, fun f hf hfrom => ?_, fun hfrom => ?_⟩
  · rcases List.eq_nil_or_concat' events with rfl | ⟨l, f, rfl⟩
    · exact absurd hto (h.head e rfl)
    · obtain ⟨hhalf, hsecond⟩ := hlast f (by simp)
      have hfrom := hsecond hto
      obtain ⟨-, hcookie, hpath⟩ := hhalf hfrom
      exact ⟨f, hw.waiting_eq f (by simp) hfrom, hfrom, hcookie, hpath⟩
  · exact ((hlast f (hw.last_eq f hf hfrom)).1 hfrom).1
  · rw [VfsEvent.edit, hfrom] at hallowed
    obtain ⟨hlifted, hfile⟩ := hallowed
    have hnot : ∀ f, w.waiting = some f → f.action ≠ .renameFromFile := fun f hf hfrom' => by
      have hto := ((hlast f (hw.last_eq f hf hfrom')).1 hfrom').1
      rw [hfrom] at hto
      cases hto
    rw [World.settled_of_not_first hnot] at hlifted hfile
    exact ⟨by simpa using hlifted, hfile rfl⟩

/-- Regular events do what their edits do. -/
theorem Regular.replayed (h : Regular t events) : Replayed t events (replay t events) := by
  induction events using List.reverseRecOn with
  | nil => exact ⟨rfl, by simp [World.Sound, replay], by simp [replay], by simp⟩
  | append_singleton events e ih =>
    have hw := ih h.of_append
    have hfits := hw.fits h
    rw [replay_concat]
    refine ⟨?_, hfits.sound, fun f hf hfrom => ?_, fun f hf hfrom => ?_⟩
    · rw [World.settled_apply hw.sound hfits, hw.settled_eq, List.map_append, run_append]
      rfl
    · rcases World.waiting_apply hf with ⟨rfl, -⟩ | hf'
      · simp
      · have hnone := hfits.waiting_second (hfits.alone f hf' hfrom)
        rw [hnone] at hf
        cases hf
    · obtain rfl : e = f := by simpa using hf
      rw [World.apply, hfrom]

end DeepinAnything.EventMerge
