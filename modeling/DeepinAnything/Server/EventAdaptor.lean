import Mathlib.Data.List.Nodup
import Mathlib.Data.List.Range
import DeepinAnything.Lib.Memory

/-!
# The queue of events in the server (`eventadaptor.cpp`)

On a mount with long file names every change is reported twice: by the file system below and by
`dlnfs`. `onHandleEvent` empties the queue in cycles of at most 101 events and drops the first event
of such a pair, which it knows by a flag that starts anew in every cycle.
-/

namespace DeepinAnything.Server

open ByteMem

abbrev QString := List Char

/-- A `QString` by its UTF-16 code units, which are what Qt counts. -/
abbrev Utf16 := List UInt16

def Utf16.ofString (s : String) : Utf16 := s.toList.map fun c => c.toNat.toUInt16

/-! ## The code -/

/-- An element of `action_buffers`. `serial` is the number of events that were pushed before it; it
tells equal events apart. -/
structure QueuedEvent where
  serial : ℕ
  action : Bytes
  path : Bytes
deriving DecidableEq, Repr

/-- What the adaptor asks Qt and `MountCacher`. -/
structure Host where
  fromLocal8Bit : Bytes → QString
  pathMatchType : QString → QString → Bool

def longname : QString := ".longname".toList

def fuseDlnfs : QString := "fuse.dlnfs".toList

def maxEventHandleCountPerCycle : ℕ := 100

namespace Host

variable (host : Host)

/-- `EventAdaptor::ignoreAction` -/
def ignoreAction (strArr : Bytes) (ignored : Bool) : Bool :=
  let strPath := host.fromLocal8Bit strArr
  -- records of long names are never handled
  if longname.isSuffixOf strPath then true
  else !ignored && host.pathMatchType strPath fuseDlnfs

end Host

/-- The variables of a running `onHandleEvent`; `popped` lists the events it has popped. -/
structure Cycle where
  tmpActions : List QueuedEvent
  ignored : Bool
  eventCount : ℕ
  popped : List QueuedEvent
deriving DecidableEq

/-- The queue, the running cycle, the lists that `onHandler` has been given, the events of each
finished cycle, and all that has been pushed. -/
structure Adaptor where
  actionBuffers : List QueuedEvent
  cycle : Option Cycle
  handled : List (List QueuedEvent)
  cycles : List (List QueuedEvent)
  pushed : List QueuedEvent
deriving DecidableEq

namespace Adaptor

/-- `pushEvent` -/
def pushEvent (s : Adaptor) (action path : Bytes) : Adaptor :=
  let event := ⟨s.pushed.length, action, path⟩
  { s with actionBuffers := s.actionBuffers ++ [event], pushed := s.pushed ++ [event] }

/-- The end of `onHandleEvent`. -/
def finish (s : Adaptor) (c : Cycle) : Adaptor :=
  { s with
    cycle := none
    handled := if c.tmpActions = [] then s.handled else s.handled ++ [c.tmpActions]
    cycles := s.cycles ++ [c.popped] }

/-- One turn of the loop of `onHandleEvent`. -/
def turn (host : Host) (s : Adaptor) (c : Cycle) : Adaptor :=
  match s.actionBuffers with
  | [] => s.finish c
  | topAction :: actionBuffers =>
    let ignored := host.ignoreAction topAction.path c.ignored
    let c := ⟨if ignored then c.tmpActions else c.tmpActions ++ [topAction], ignored,
      c.eventCount + 1, c.popped ++ [topAction]⟩
    let s := { s with actionBuffers := actionBuffers }
    if c.eventCount ≤ maxEventHandleCountPerCycle then { s with cycle := some c } else s.finish c

/-- An event is pushed, the timer starts a cycle, or the running cycle makes a turn. -/
inductive Step (host : Host) : Adaptor → Adaptor → Prop
  | push (s : Adaptor) (action path : Bytes) : Step host s (s.pushEvent action path)
  | timeout (s : Adaptor) (hidle : s.cycle = none) :
      Step host s { s with cycle := some ⟨[], false, 0, []⟩ }
  | turn (s : Adaptor) {c : Cycle} (hrunning : s.cycle = some c) : Step host s (s.turn host c)

/-- The states that runs reach from the empty queue. -/
inductive Reachable (host : Host) : Adaptor → Prop
  | initial : Reachable host ⟨[], none, [], [], []⟩
  | step {s s' : Adaptor} (hs : Reachable host s) (hstep : Step host s s') : Reachable host s'

end Adaptor

/-! ## One cycle over a sequence -/

namespace Host

variable (host : Host)

/-- What a cycle makes of a sequence of events, with the flag at its start. -/
def handle : Bool → List QueuedEvent → List QueuedEvent
  | _, [] => []
  | ignored, e :: events =>
    if host.ignoreAction e.path ignored then handle true events else e :: handle false events

/-- The flag after a sequence of events. -/
def flagAfter : Bool → List QueuedEvent → Bool
  | ignored, [] => ignored
  | ignored, e :: events => flagAfter (host.ignoreAction e.path ignored) events

variable {host} {ignored : Bool} {e : QueuedEvent} {l l' : List QueuedEvent}

theorem handle_append (l l' : List QueuedEvent) :
    host.handle ignored (l ++ l') = host.handle ignored l ++ host.handle (host.flagAfter ignored l) l' := by
  induction l generalizing ignored with
  | nil => rfl
  | cons e l ih =>
    rw [List.cons_append, handle, handle, flagAfter]
    cases host.ignoreAction e.path ignored with
    | true => rw [if_pos rfl, if_pos rfl, ih]
    | false => rw [if_neg Bool.false_ne_true, if_neg Bool.false_ne_true, ih, List.cons_append]

theorem flagAfter_append (l l' : List QueuedEvent) :
    host.flagAfter ignored (l ++ l') = host.flagAfter (host.flagAfter ignored l) l' := by
  induction l generalizing ignored with
  | nil => rfl
  | cons e l ih => rw [List.cons_append, flagAfter, flagAfter, ih]

theorem handle_sublist (l : List QueuedEvent) : (host.handle ignored l).Sublist l := by
  induction l generalizing ignored with
  | nil => exact List.Sublist.refl _
  | cons e l ih =>
    rw [handle]
    split
    · exact ih.cons e
    · exact ih.cons_cons e

/-- The event would be handled with the flag that has been lost, and is not handled without it. -/
def Shifted (host : Host) (ignored : Bool) (e : QueuedEvent) : Prop :=
  ignored = true ∧ ¬ longname.isSuffixOf (host.fromLocal8Bit e.path) ∧
    host.pathMatchType (host.fromLocal8Bit e.path) fuseDlnfs

instance (host : Host) (ignored : Bool) (e : QueuedEvent) : Decidable (host.Shifted ignored e) :=
  inferInstanceAs (Decidable (_ ∧ _))

/-- Otherwise it does not matter for the event that the flag has been lost. -/
theorem ignoreAction_of_not_shifted (h : ¬ host.Shifted ignored e) :
    host.ignoreAction e.path false = host.ignoreAction e.path ignored := by
  cases ignored with
  | false => rfl
  | true =>
    rw [ignoreAction, ignoreAction]
    by_cases hlong : longname.isSuffixOf (host.fromLocal8Bit e.path) = true
    · rw [if_pos hlong, if_pos hlong]
    · rw [if_neg hlong, if_neg hlong]
      have hmatch : ¬ host.pathMatchType (host.fromLocal8Bit e.path) fuseDlnfs = true := fun hmatch =>
        h ⟨rfl, hlong, hmatch⟩
      simpa using hmatch

theorem ignoreAction_of_shifted (h : host.Shifted ignored e) :
    host.ignoreAction e.path ignored = false ∧ host.ignoreAction e.path false = true := by
  obtain ⟨rfl, hlong, hmatch⟩ := h
  rw [ignoreAction, ignoreAction, if_neg hlong, if_neg hlong]
  exact ⟨rfl, hmatch⟩

theorem handle_of_not_shifted (h : ∀ e ∈ l.head?, ¬ host.Shifted ignored e) :
    host.handle false l = host.handle ignored l := by
  cases l with
  | nil => rfl
  | cons e l => rw [handle, handle, ignoreAction_of_not_shifted (h e rfl)]

/-! ## Cutting a sequence into cycles -/

/-- No cycle begins with an event for which it matters that the flag has been lost. -/
def CutsOk (host : Host) : Bool → List (List QueuedEvent) → Prop
  | _, [] => True
  | ignored, c :: cycles =>
    (∀ e ∈ c.head?, ¬ host.Shifted ignored e) ∧ CutsOk host (host.flagAfter ignored c) cycles

/-- Cycles that start anew make the same of a sequence as one cycle, just when they are cut so. -/
theorem handle_flatten_iff {cycles : List (List QueuedEvent)} (hnodup : cycles.flatten.Nodup) :
    (cycles.map (host.handle false)).flatten = host.handle ignored cycles.flatten ↔
      host.CutsOk ignored cycles := by
  induction cycles generalizing ignored with
  | nil => exact iff_of_true rfl trivial
  | cons c cycles ih =>
    rw [List.flatten_cons] at hnodup
    obtain ⟨hc, hcycles, hdisjoint⟩ := List.nodup_append.mp hnodup
    rw [List.map_cons, List.flatten_cons, List.flatten_cons, handle_append, CutsOk]
    constructor
    · intro heq
      have hhead : ∀ e ∈ c.head?, ¬ host.Shifted ignored e := by
        intro e he hshifted
        cases c with
        | nil => simp at he
        | cons e' c =>
          obtain rfl : e' = e := Option.some.inj he
          obtain ⟨hkeep, hdrop⟩ := ignoreAction_of_shifted hshifted
          rw [handle, handle, hkeep, hdrop, if_pos rfl, if_neg Bool.false_ne_true] at heq
          -- the event is missing on the left
          have hmem : e' ∈ host.handle true c ++ (cycles.map (host.handle false)).flatten := by
            rw [heq]
            simp
          rcases List.mem_append.mp hmem with hmem | hmem
          · exact (List.nodup_cons.mp hc).1 ((handle_sublist c).subset hmem)
          · obtain ⟨l, hl, hmem⟩ := List.mem_flatten.mp hmem
            obtain ⟨c', hc', rfl⟩ := List.mem_map.mp hl
            exact hdisjoint e' (by simp) e'
              (List.mem_flatten.mpr ⟨c', hc', (handle_sublist c').subset hmem⟩) rfl
      rw [handle_of_not_shifted hhead] at heq
      exact ⟨hhead, (ih hcycles).mp (List.append_cancel_left heq)⟩
    · rintro ⟨hhead, hrest⟩
      rw [handle_of_not_shifted hhead, (ih hcycles).mpr hrest]

/-! ## Changes on a mount with long names -/

/-- The event is about a path on a `dlnfs` mount and no record of a long name. -/
def OnDlnfs (host : Host) (e : QueuedEvent) : Prop :=
  ¬ longname.isSuffixOf (host.fromLocal8Bit e.path) ∧
    host.pathMatchType (host.fromLocal8Bit e.path) fuseDlnfs

/-- The event is about a path elsewhere and no record of a long name. -/
def Elsewhere (host : Host) (e : QueuedEvent) : Prop :=
  ¬ longname.isSuffixOf (host.fromLocal8Bit e.path) ∧
    ¬ host.pathMatchType (host.fromLocal8Bit e.path) fuseDlnfs

/-- A change arrives as one event or, on a `dlnfs` mount, as two. -/
inductive Change where
  | single (e : QueuedEvent)
  | twice (original dlnfs : QueuedEvent)

namespace Change

/-- The events of a change. -/
def reported : Change → List QueuedEvent
  | single e => [e]
  | twice original dlnfs => [original, dlnfs]

/-- The event that stands for the change. -/
def last : Change → QueuedEvent
  | single e => e
  | twice _ dlnfs => dlnfs

/-- Changes on a `dlnfs` mount are reported twice, all others once. -/
def Ok (host : Host) : Change → Prop
  | single e => host.Elsewhere e
  | twice original dlnfs => host.OnDlnfs original ∧ host.OnDlnfs dlnfs

end Change

/-- One cycle handles the second event of each change on a `dlnfs` mount and every other event. -/
theorem handle_changes {changes : List Change} (h : ∀ c ∈ changes, c.Ok host) :
    host.handle false (changes.flatMap Change.reported) = changes.map Change.last := by
  induction changes with
  | nil => rfl
  | cons c changes ih =>
    have hc := h c (by simp)
    rw [List.flatMap_cons, List.map_cons, ← ih fun c hc => h c (List.mem_cons_of_mem _ hc)]
    cases c with
    | single e =>
      have he : host.ignoreAction e.path false = false := by
        rw [ignoreAction, if_neg hc.1]
        simpa using hc.2
      rw [Change.reported, List.singleton_append, handle, he, if_neg Bool.false_ne_true, Change.last]
    | twice original dlnfs =>
      have hfirst : host.ignoreAction original.path false = true := by
        rw [ignoreAction, if_neg hc.1.1]
        exact hc.1.2
      have hsecond : host.ignoreAction dlnfs.path true = false := by
        rw [ignoreAction, if_neg hc.2.1]
        rfl
      rw [Change.reported, List.cons_append, List.singleton_append, handle, hfirst, if_pos rfl, handle,
        hsecond, if_neg Bool.false_ne_true, Change.last]

end Host

/-! ## Runs -/

namespace Adaptor

variable {host : Host} {s s' : Adaptor}

/-- What has been handled comes from the cycles, and every event pushed is in a cycle or waits. -/
structure Kept (host : Host) (s : Adaptor) : Prop where
  events : s.cycles.flatten ++ (s.cycle.map Cycle.popped).getD [] ++ s.actionBuffers = s.pushed
  serials : s.pushed.map QueuedEvent.serial = List.range s.pushed.length
  handled : s.handled.flatten = (s.cycles.map (host.handle false)).flatten
  running : ∀ c ∈ s.cycle, c.tmpActions = host.handle false c.popped ∧
    c.ignored = host.flagAfter false c.popped

theorem Kept.finish (h : s.Kept host) {c : Cycle} (hrunning : s.cycle = some c) :
    (s.finish c).Kept host := by
  refine ⟨?_, h.serials, ?_, by simp [Adaptor.finish]⟩
  · have := h.events
    rw [hrunning] at this
    simpa [Adaptor.finish] using this
  · have htmp := (h.running c hrunning).1
    rw [Adaptor.finish]
    simp only [List.map_append, List.map_cons, List.map_nil, List.flatten_append, ← h.handled, ← htmp]
    split
    · rename_i hnil
      simp [hnil]
    · simp

theorem Kept.turn (h : s.Kept host) {c : Cycle} (hrunning : s.cycle = some c) :
    (s.turn host c).Kept host := by
  rw [Adaptor.turn]
  split
  · exact h.finish hrunning
  · rename_i topAction actionBuffers hbuffers
    obtain ⟨htmp, hignored⟩ := h.running c hrunning
    simp only
    generalize hc' : (⟨if host.ignoreAction topAction.path c.ignored then c.tmpActions
      else c.tmpActions ++ [topAction], host.ignoreAction topAction.path c.ignored,
      c.eventCount + 1, c.popped ++ [topAction]⟩ : Cycle) = c'
    have hnext : ({ s with actionBuffers := actionBuffers, cycle := some c' } : Adaptor).Kept host := by
      subst hc'
      refine ⟨?_, h.serials, h.handled, ?_⟩
      · have := h.events
        rw [hrunning, hbuffers] at this
        simpa using this
      · rintro c₁ hc₁
        obtain rfl := Option.some.inj hc₁
        simp only
        rw [Host.handle_append, Host.flagAfter_append, ← hignored, ← htmp, Host.handle, Host.flagAfter,
          Host.flagAfter, Host.handle, Host.handle]
        refine ⟨?_, rfl⟩
        split <;> simp
    split
    · exact hnext
    · exact hnext.finish rfl

theorem Kept.step (h : s.Kept host) (hstep : Step host s s') : s'.Kept host := by
  cases hstep with
  | push action path =>
    refine ⟨?_, ?_, h.handled, h.running⟩
    · simp [pushEvent, ← h.events]
    · simp [pushEvent, List.range_succ, h.serials]
  | timeout hidle =>
    refine ⟨?_, h.serials, h.handled, ?_⟩
    · have := h.events
      rw [hidle] at this
      simpa using this
    · rintro c hc
      obtain rfl := Option.some.inj hc
      exact ⟨rfl, rfl⟩
  | turn hrunning => exact h.turn hrunning

theorem Reachable.kept (h : Reachable host s) : s.Kept host := by
  induction h with
  | initial => exact ⟨rfl, rfl, rfl, by simp⟩
  | step _ hstep ih => exact ih.step hstep

/-- When the queue has been emptied, the lists that were handled make up what one cycle over all events
would have made, if and only if no cycle began with an event that needed the lost flag; and that one
cycle takes the second event of each change on a `dlnfs` mount. -/
theorem reachable_handled_iff (h : Reachable host s) (hidle : s.cycle = none)
    (hempty : s.actionBuffers = []) :
    (s.handled.flatten = host.handle false s.pushed ↔ host.CutsOk false s.cycles) ∧
      ∀ changes : List Host.Change, (∀ c ∈ changes, c.Ok host) →
        s.pushed = changes.flatMap Host.Change.reported →
        host.handle false s.pushed = changes.map Host.Change.last := by
  have hkept := h.kept
  have hpushed : s.cycles.flatten = s.pushed := by
    have := hkept.events
    rw [hidle, hempty] at this
    simpa using this
  have hnodup : s.pushed.Nodup := by
    refine List.Nodup.of_map QueuedEvent.serial ?_
    rw [hkept.serials]
    exact List.nodup_range
  refine ⟨?_, fun changes hok heq => ?_⟩
  · rw [hkept.handled, ← hpushed]
    exact Host.handle_flatten_iff (hpushed ▸ hnodup)
  · rw [heq]
    exact Host.handle_changes hok

/-- The sample host decodes ASCII, and `/d` is a `dlnfs` mount. -/
def sampleHost : Host where
  fromLocal8Bit bytes := bytes.map fun byte => Char.ofNat byte.toNat
  pathMatchType path type := "/d".toList.isPrefixOf path && type == fuseDlnfs

/-- The paths `/d/a` and `/e`. -/
def sampleOnDlnfs : Bytes := [47, 100, 47, 97]

def sampleElsewhere : Bytes := [47, 101]

/-- One cycle takes an event elsewhere; the next one finds the queue empty. -/
theorem reachable_handled_iff_sample : ∃ s, Reachable sampleHost s ∧
    s.cycles = [[⟨0, [], sampleElsewhere⟩], []] ∧
    (s.handled.flatten = sampleHost.handle false s.pushed ↔ sampleHost.CutsOk false s.cycles) := by
  have h := Reachable.step (@Reachable.initial sampleHost) (.push _ [] sampleElsewhere)
  have h := h.step (.timeout _ rfl)
  have h := h.step (.turn _ rfl)
  have h := h.step (.turn _ rfl)
  have h := h.step (.timeout _ rfl)
  have h := h.step (.turn _ rfl)
  exact ⟨_, h, by decide, (reachable_handled_iff h (by decide) (by decide)).1⟩

/-- The queue runs empty between the two events of a change, and both are dropped. -/
theorem reachable_change_lost : ∃ s, Reachable sampleHost s ∧ s.cycle = none ∧
    s.actionBuffers = [] ∧ s.handled.flatten = [] ∧
    (sampleHost.handle false s.pushed).map QueuedEvent.path = [sampleOnDlnfs] := by
  have h := Reachable.step (@Reachable.initial sampleHost) (.push _ [] sampleOnDlnfs)
  have h := h.step (.timeout _ rfl)
  have h := h.step (.turn _ rfl)
  have h := h.step (.turn _ rfl)
  have h := h.step (.push _ [] sampleOnDlnfs)
  have h := h.step (.timeout _ rfl)
  have h := h.step (.turn _ rfl)
  have h := h.step (.turn _ rfl)
  exact ⟨_, h, by decide, by decide, by decide, by decide⟩

end Adaptor

end DeepinAnything.Server
