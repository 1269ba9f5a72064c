import Mathlib.Data.Int.Notation
import Mathlib.Logic.Function.Basic
import DeepinAnything.Lib.Memory

/-!
# Merging of file events (`event_merge.c`)

The kernel module keeps file events in the list `vfs_events` for up to a tenth of a second, so that
events that cancel each other need not be sent. An event that comes in may undo a buffered one or
be joined to it: the two halves of a rename carry the same cookie, and the second half is linked to
the first through `pair`. A timer and a full buffer hand events out; they are sent after the lock has
been dropped, so that several batches can be on their way at once.

Events are objects on a heap, as in the source, and the list and the `pair` fields hold addresses. A
write through a `pair` that is null or leads to an event that is not in the list any more is a
fault.
-/

namespace DeepinAnything.EventMerge

open ByteMem

/-! ## Events -/

/-- The `ACT_` codes. -/
inductive Action where
  | newFile
  | newLink
  | newSymlink
  | newFolder
  | delFile
  | delFolder
  | renameFile
  | renameFolder
  | renameFromFile
  | renameToFile
  | renameFromFolder
  | renameToFolder
  | mount
  | unmount
deriving DecidableEq, Repr

/-- The number of an action. -/
def Action.code : Action → ℕ
  | .newFile => 0
  | .newLink => 1
  | .newSymlink => 2
  | .newFolder => 3
  | .delFile => 4
  | .delFolder => 5
  | .renameFile => 6
  | .renameFolder => 7
  | .renameFromFile => 8
  | .renameToFile => 9
  | .renameFromFolder => 10
  | .renameToFolder => 11
  | .mount => 12
  | .unmount => 13

/-- The actions that a file comes into being with. -/
def Action.isNew (action : Action) : Bool := action.code < Action.newFolder.code

/-- `struct vfs_event`, with 0 in `pair` as `none`. -/
structure VfsEvent where
  action : Action
  cookie : ℕ
  dev : ℕ
  path : Bytes
  pair : Option ℕ
deriving DecidableEq, Repr

namespace VfsEvent

/-- `cmp_event_path`: the events are about different paths. -/
def cmpEventPath (e₁ e₂ : VfsEvent) : Bool := e₁.dev ≠ e₂.dev || e₁.path ≠ e₂.path

/-- The event with another action and no cookie. -/
def rewrite (action : Action) (e : VfsEvent) : VfsEvent := { e with action := action, cookie := 0 }

/-- The event with another pair. -/
def setPair (pair : Option ℕ) (e : VfsEvent) : VfsEvent := { e with pair := pair }

@[simp] theorem action_setPair (pair : Option ℕ) (e : VfsEvent) :
    (e.setPair pair).action = e.action := rfl

@[simp] theorem cookie_setPair (pair : Option ℕ) (e : VfsEvent) :
    (e.setPair pair).cookie = e.cookie := rfl

@[simp] theorem pair_setPair (pair : Option ℕ) (e : VfsEvent) : (e.setPair pair).pair = pair := rfl

/-- The events that `pick_events` hands out. -/
def deliverable (e : VfsEvent) : Bool := e.action ≠ .renameFromFile || e.pair.isSome

end VfsEvent

def mergeBufferSize : ℕ := 100

def dumpSize : ℕ := 10

/-! ## The buffer -/

/-- The static variables of the module and the heap its events are on. `pending` is the timer
`event_timeout_notify`; `freed` lists the freed events, and `fault` records a write to an event that
was not in the list. -/
structure Merger where
  heap : ℕ → VfsEvent
  events : List ℕ
  number : ℤ
  pending : Bool
  quit : Bool
  freed : List ℕ
  fault : Bool

namespace Merger

variable (s : Merger)

/-- A write to the event at an address. -/
def update (p : ℕ) (f : VfsEvent → VfsEvent) : Merger :=
  { s with heap := Function.update s.heap p (f (s.heap p)) }

@[simp] theorem heap_update_self (p : ℕ) (f : VfsEvent → VfsEvent) :
    (s.update p f).heap p = f (s.heap p) := Function.update_self _ _ _

theorem heap_update_of_ne {p q : ℕ} (h : q ≠ p) (f : VfsEvent → VfsEvent) :
    (s.update p f).heap q = s.heap q := Function.update_of_ne h _ _

@[simp] theorem events_update (p : ℕ) (f : VfsEvent → VfsEvent) : (s.update p f).events = s.events := rfl

/-- A write through the `pair` of an event. -/
def writePair (e : VfsEvent) (f : VfsEvent → VfsEvent) : Merger :=
  match e.pair with
  | none => { s with fault := true }
  | some q => { s.update q f with fault := s.fault || !(s.events.contains q) }

/-- `REMOVE_ENTRY` -/
def removeEntry (p : ℕ) : Merger :=
  { s with events := s.events.erase p, number := s.number - 1, freed := p :: s.freed }

/-- `MOVE_EVENT`, without the array of the caller. -/
def moveEvent (p : ℕ) : Merger := { s with events := s.events.erase p, number := s.number - 1 }

/-! ## Merging

Each function compares the incoming event with the buffered event at `p`. The result is the buffer
after `MERGE_OK`, and `none` for `MERGE_FAIL`. -/

/-- `merge_new_file` -/
def mergeNewFile (p : ℕ) (cur : VfsEvent) : Option Merger :=
  let e := s.heap p
  if e.action = .delFile then
    if e.cmpEventPath cur then none else some (s.removeEntry p)
  else if e.action = .renameFromFile then
    if e.cmpEventPath cur then none
    else
      let s := if e.pair.isSome then s.writePair e (.rewrite .newFile) else s
      some (s.removeEntry p)
  else none

/-- The body that `merge_del_file` and `merge_rename_from_file` share: what made the file is
undone. -/
def mergeGone (p : ℕ) (cur : VfsEvent) : Option Merger :=
  let e := s.heap p
  if e.action.isNew then
    if e.cmpEventPath cur then none else some (s.removeEntry p)
  else if e.action = .renameToFile then
    if e.pair.isNone then none
    else if e.cmpEventPath cur then none
    else some ((s.writePair e (.rewrite .delFile)).removeEntry p)
  else none

/-- `merge_del_file` -/
def mergeDelFile (p : ℕ) (cur : VfsEvent) : Option Merger := s.mergeGone p cur

/-- `merge_rename_from_file` -/
def mergeRenameFromFile (p : ℕ) (cur : VfsEvent) : Option Merger := s.mergeGone p cur

/-- `merge_rename_to_file` -/
def mergeRenameToFile (p : ℕ) (cur : VfsEvent) : Option Merger :=
  let e := s.heap p
  if e.action = .delFile then
    if cur.pair.isNone then none
    else if e.cmpEventPath cur then none
    else some ((s.writePair cur (.rewrite .delFile)).removeEntry p)
  else none

/-- `action_merge_fns` -/
def actionMergeFns : Action → Option (Merger → ℕ → VfsEvent → Option Merger)
  | .newFile | .newLink | .newSymlink => some mergeNewFile
  | .delFile => some mergeDelFile
  | .renameFromFile => some mergeRenameFromFile
  | .renameToFile => some mergeRenameToFile
  | _ => none

/-- The loop over the buffer from its end, which stops at the first event that merges. -/
def mergeEvent (cur : VfsEvent) : Option Merger :=
  (actionMergeFns cur.action).bind fun fn => s.events.reverse.findSome? fun p => fn s p cur

/-! ## Handing out -/

/-- The loop of `pick_events` over the rest of the list; `i` events have been moved. -/
def pickLoop : List ℕ → ℕ → Merger → List ℕ → Merger × List ℕ
  | [], _, s, batch => (s, batch)
  | p :: next, i, s, batch =>
    let e := s.heap p
    if e.deliverable then
      let s := s.moveEvent p
      -- the other half of the rename stays behind without a pair
      let s := if e.action = .renameFromFile then s.writePair e (.setPair none) else s
      if i + 1 ≥ dumpSize then (s, batch ++ [p]) else pickLoop next (i + 1) s (batch ++ [p])
    else pickLoop next i s batch

/-- `pick_events` -/
def pickEvents : Merger × List ℕ :=
  if s.quit then ({ s with events := [], number := s.number - s.events.length }, s.events)
  else pickLoop s.events 0 s []

/-- `check_events` -/
def checkEvents : Merger × List ℕ :=
  if s.number = 0 then ({ s with pending := false }, [])
  else if s.number = 1 then ({ s with pending := true }, [])
  else if s.number ≥ mergeBufferSize then s.pickEvents
  else (s, [])

/-- The pairing of a second half of a rename with the first event of its cookie; it becomes a new
file if there is none. -/
def pairing (p : ℕ) : Merger :=
  if (s.heap p).action = .renameToFile then
    match s.events.find? fun q => (s.heap q).cookie = (s.heap p).cookie with
    | some q => (s.update q (.setPair (some p))).update p (.setPair (some q))
    | none => s.update p (.rewrite .newFile)
  else s

/-- The event at `p`, without a pair or with the one that has been found. -/
def receive (p : ℕ) (event : VfsEvent) : Merger := (s.update p fun _ => event.setPair none).pairing p

/-- The event at `p` is freed if it merges, else it goes to the end of the list. -/
def absorb (p : ℕ) : Merger :=
  match s.mergeEvent (s.heap p) with
  | some s => { s with freed := p :: s.freed }
  | none => { s with events := s.events ++ [p], number := s.number + 1 }

/-- `do_event_merge` of the event at `p` up to the end of the lock, with the events to send. -/
def doEventMerge (p : ℕ) (event : VfsEvent) : Merger × List ℕ :=
  ((s.receive p event).absorb p).checkEvents

/-- `event_timeout_notify_callback` up to the end of the lock. -/
def eventTimeoutNotifyCallback : Merger × List ℕ := { s with pending := false }.pickEvents

/-- The end of `notify_events` when something has been sent. -/
def rearm : Merger := if s.number ≥ 1 then { s with pending := true } else s

@[simp] theorem heap_rearm : s.rearm.heap = s.heap := by
  unfold rearm
  split <;> rfl

@[simp] theorem events_rearm : s.rearm.events = s.events := by
  unfold rearm
  split <;> rfl

@[simp] theorem number_rearm : s.rearm.number = s.number := by
  unfold rearm
  split <;> rfl

@[simp] theorem freed_rearm : s.rearm.freed = s.freed := by
  unfold rearm
  split <;> rfl

@[simp] theorem fault_rearm : s.rearm.fault = s.fault := by
  unfold rearm
  split <;> rfl

end Merger

/-! ## Runs -/

/-- The buffer, the batches that are being sent, the events that `vfs_changed_entry` has been given,
and those that have been passed to `do_event_merge`. -/
structure Monitor where
  merger : Merger
  outgoing : List (List ℕ)
  sent : List (ℕ × VfsEvent)
  passed : List (ℕ × VfsEvent)

/-- What happens next: a thread passes an event, which is an object of its own, and leaves the lock;
the timer expires; `vfs_changed_entry` is called for the next event of a batch; a batch has been sent;
`clearup_event_merge` starts. -/
inductive Act where
  | pass (p : ℕ) (event : VfsEvent)
  | expire
  | send (i : ℕ)
  | finish (i : ℕ)
  | clearup

namespace Monitor

variable (s : Monitor)

/-- The buffer has left the lock with a batch; an empty one is not sent. -/
def leave (r : Merger × List ℕ) : Monitor :=
  { s with merger := r.1, outgoing := if r.2 = [] then s.outgoing else s.outgoing ++ [r.2] }

/-- One step, if it can happen. The array that `pick_events` fills ends with a null; with `quit` set
it has room for a buffer that was not full then. -/
def step : Act → Option Monitor
  | .pass p event =>
    if p ∈ s.passed.map Prod.fst then none
    else
      let s := s.leave (s.merger.doEventMerge p event)
      some { s with passed := s.passed ++ [(p, event)] }
  | .expire => if s.merger.pending then some (s.leave s.merger.eventTimeoutNotifyCallback) else none
  | .send i =>
    match s.outgoing[i]? with
    | some (p :: batch) =>
      some { s with
        merger := { s.merger with freed := p :: s.merger.freed }
        outgoing := s.outgoing.set i batch
        sent := s.sent ++ [(p, s.merger.heap p)] }
    | _ => none
  | .finish i =>
    match s.outgoing[i]? with
    | some [] => some { s with merger := s.merger.rearm, outgoing := s.outgoing.eraseIdx i }
    | _ => none
  | .clearup =>
    if s.merger.events.length < mergeBufferSize then
      some { s with merger := { s.merger with quit := true } }
    else none

/-- Nothing has been passed yet. -/
def initial (heap : ℕ → VfsEvent) : Monitor :=
  ⟨⟨heap, [], 0, false, false, [], false⟩, [], [], []⟩

/-- The states that runs reach whose steps meet a condition. -/
inductive Reachable (ok : Monitor → Act → Prop) : Monitor → Prop
  | initial (heap : ℕ → VfsEvent) : Reachable ok (initial heap)
  | step {s s' : Monitor} {a : Act} (hs : Reachable ok s) (hok : ok s a)
      (hstep : s.step a = some s') : Reachable ok s'

/-- The state after a list of steps that meet the condition. -/
def runs (ok : Monitor → Act → Prop) [∀ s a, Decidable (ok s a)] : Monitor → List Act → Option Monitor
  | s, [] => some s
  | s, a :: acts => if ok s a then (s.step a).bind (runs ok · acts) else none

theorem Reachable.runs {ok : Monitor → Act → Prop} [∀ s a, Decidable (ok s a)] {s s' : Monitor}
    (h : Reachable ok s) {acts : List Act} (hruns : s.runs ok acts = some s') : Reachable ok s' := by
  induction acts generalizing s with
  | nil => exact Option.some.inj hruns ▸ h
  | cons a acts ih =>
    rw [Monitor.runs] at hruns
    split at hruns
    · rename_i hok
      obtain ⟨s₁, hstep, hruns⟩ := Option.bind_eq_some_iff.mp hruns
      exact ih (.step h hok hstep) hruns
    · simp at hruns

end Monitor

end DeepinAnything.EventMerge
