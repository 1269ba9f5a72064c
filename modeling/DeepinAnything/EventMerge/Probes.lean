import DeepinAnything.EventMerge.Capacity

/-!
# Rename cookies

The kretprobe on `vfs_rename` gives the two halves of a rename the next value of a 32-bit counter as
their cookie and passes them one after the other, while other threads pass events of their own. The
buffer joins a second half to the first event that carries its cookie, whatever that event is. The
counter comes back to a value after 2³² renames, and on its way to 0, the cookie of every event that is
no rename.
-/

namespace DeepinAnything.EventMerge

open ByteMem ListOrder

/-! ## What an event touches -/

namespace Merger

variable {s s' : Merger} {p x y : ℕ} {event : VfsEvent}

theorem heap_writePair_of_ne {e : VfsEvent} (hx : e.pair ≠ some x) (f : VfsEvent → VfsEvent) :
    (s.writePair e f).heap x = s.heap x := by
  unfold writePair
  cases hpair : e.pair with
  | none => rfl
  | some q =>
    refine heap_update_of_ne s (fun hxq => hx ?_) f
    rw [hpair, hxq]

/-- A merge changes an event that is the partner of the one that has come in, or of a buffered half. -/
theorem Merged.touched {cur : VfsEvent} (h : s.Merged cur p s') (hne : s'.heap x ≠ s.heap x) :
    cur.action = .renameToFile ∧ cur.pair = some x ∨
      cur.action ≠ .renameToFile ∧ (s.heap p).pair = some x ∧
        ((s.heap p).action = .renameFromFile ∨ (s.heap p).action = .renameToFile) := by
  have hwrite : ∀ (e : VfsEvent) f, ((s.writePair e f).removeEntry p).heap x ≠ s.heap x →
      e.pair = some x := fun e f hne' => by
    by_contra hx
    exact hne' (heap_writePair_of_ne hx f)
  cases h with
  | recreated | refilled | undone => exact absurd rfl hne
  | refilledPaired hcur hp =>
    exact .inr ⟨fun hto => absurd hcur (by rw [hto]; decide), hwrite _ _ hne, .inl hp⟩
  | undonePaired hcur hp =>
    exact .inr ⟨fun hto => by simp [hto] at hcur, hwrite _ _ hne, .inr hp⟩
  | overwritten hcur => exact .inl ⟨hcur, hwrite _ _ hne⟩

/-- An event that comes in changes the one it is paired with, and buffered halves with a partner. -/
theorem Sound.absorb_touched (h : s.Sound) (hp : p ∉ s.events) (hx : x ≠ p)
    (hne : ((s.receive p event).absorb p).heap x ≠ s.heap x) :
    event.action = .renameToFile ∧ s.found event = some x ∨ ∃ z, s.Partners z x := by
  have hevents := (receive_frame s event hp).1
  by_cases hr : (s.receive p event).heap x = s.heap x
  · rcases absorb_cases (s.receive p event) p with ⟨-, heq⟩ | ⟨s', z, hz, -, hmerged, heq⟩
    · rw [heq] at hne
      exact absurd hr hne
    rw [heq] at hne
    rw [hevents] at hz
    rcases hmerged.touched (x := x) (by rwa [hr]) with ⟨-, hpair⟩ | ⟨hto, hpair, hact⟩
    · exact .inl (found_of_receive hp hpair)
    · -- the event is no second half, so that buffered events are as they were
      right
      have hsame : (s.receive p event).heap z = s.heap z := by
        rcases receive_cases s event hp with ⟨hto', q, -, -, heq'⟩ | ⟨e, heq', -⟩
        · rw [heq', heap_update_self] at hto
          exact absurd hto' hto
        · rw [heq', heap_update_of_ne _ (ne_of_mem_of_not_mem hz hp)]
      rw [hsame] at hpair hact
      exact ⟨z, h.partners_of_pair hz hact hpair⟩
  · left
    rcases receive_cases s event hp with ⟨-, q, -, -, heq⟩ | ⟨e, heq, -⟩
    · have hq : x = q := by
        by_contra hxq
        rw [heq, heap_update_of_ne _ hx, heap_update_of_ne _ hxq] at hr
        exact hr rfl
      rw [hq]
      exact found_of_receive hp (by rw [heq, heap_update_self]; rfl)
    · rw [heq, heap_update_of_ne _ hx] at hr
      exact absurd rfl hr

/-- The loop of a pick changes partners of first halves only. -/
theorem pickLoop_touched {ptrs : List ℕ} {i : ℕ} {batch : List ℕ}
    (hne : (pickLoop ptrs i s batch).1.heap x ≠ s.heap x) :
    ∃ z ∈ ptrs, (s.heap z).action = .renameFromFile ∧ (s.heap z).pair = some x := by
  induction ptrs generalizing s i batch with
  | nil => exact absurd rfl hne
  | cons p next ih =>
    rw [pickLoop] at hne
    simp only at hne
    by_cases hdeliver : (s.heap p).deliverable = true
    · rw [if_pos hdeliver] at hne
      generalize hs₁ : (if (s.heap p).action = .renameFromFile then
        (s.moveEvent p).writePair (s.heap p) (.setPair none) else s.moveEvent p) = s₁ at hne
      have hheap : ∀ w, s₁.heap w = s.heap w ∨ (s.heap p).action = .renameFromFile ∧
          (s.heap p).pair = some w ∧ s₁.heap w = (s.heap w).setPair none := fun w => by
        rw [← hs₁]
        split
        · rename_i hact
          exact (heap_writePair_setPair (s := s.moveEvent p) (s.heap p) w).imp id fun h => ⟨hact, h⟩
        · exact .inl rfl
      rcases hheap x with hx | ⟨hact, hpair, -⟩
      · have hrest : (pickLoop next (i + 1) s₁ (batch ++ [p])).1.heap x ≠ s₁.heap x := by
          split at hne
          · exact absurd hx hne
          · rwa [hx]
        obtain ⟨z, hz, hact, hpair⟩ := ih hrest
        refine ⟨z, List.mem_cons_of_mem _ hz, ?_⟩
        rcases hheap z with heq | ⟨-, -, heq⟩
        · rw [← heq]
          exact ⟨hact, hpair⟩
        · rw [heq] at hpair
          simp at hpair
      · exact ⟨p, by simp, hact, hpair⟩
    · rw [if_neg hdeliver] at hne
      obtain ⟨z, hz, hz'⟩ := ih hne
      exact ⟨z, List.mem_cons_of_mem _ hz, hz'⟩

theorem Sound.pickEvents_touched (h : s.Sound) (hne : s.pickEvents.1.heap x ≠ s.heap x) :
    ∃ z, s.Halves z x := by
  rw [pickEvents] at hne
  split at hne
  · exact absurd rfl hne
  obtain ⟨z, hz, hact, hpair⟩ := pickLoop_touched hne
  rcases h.partners_of_pair hz (.inl hact) hpair with hh | hh
  · exact ⟨z, hh⟩
  · exact absurd (hact.symm.trans hh.to_action) (by decide)

theorem Sound.checkEvents_touched (h : s.Sound) (hne : s.checkEvents.1.heap x ≠ s.heap x) :
    ∃ z, s.Halves z x := by
  rcases checkEvents_cases s with ⟨-, heq⟩ | ⟨-, heq⟩ | ⟨-, -, -, heq⟩ | ⟨-, -, -, heq⟩
  · rw [heq] at hne
    exact absurd rfl hne
  · rw [heq] at hne
    exact absurd rfl hne
  · rw [heq] at hne
    exact h.pickEvents_touched hne
  · rw [heq] at hne
    exact absurd rfl hne

/-! ## Where halves come from -/

/-- Halves in the buffer have been there, or are the event that has come in and what it has found. -/
theorem Sound.halves_absorb (h : s.Sound) (hp : p ∉ s.events)
    (hxy : ((s.receive p event).absorb p).Halves x y) :
    s.Halves x y ∨ y = p ∧ event.action = .renameToFile ∧ s.found event = some x := by
  obtain ⟨hx, hfrom, hpair⟩ := absorb_from hp (hxy.before.subset (by simp)) hxy.from_action hxy.from_pair
  rcases hpair with hpair | ⟨rfl, -⟩
  · rcases h.partners_of_pair hx (.inl hfrom) hpair with hh | hh
    · exact .inl hh
    · exact absurd (hfrom.symm.trans hh.to_action) (by decide)
  · refine .inr ⟨rfl, ?_⟩
    have hto := hxy.to_pair
    have hmem : y ∈ ((s.receive y event).absorb y).events := hxy.before.subset (by simp)
    have hevents := (receive_frame s event hp).1
    rcases absorb_cases (s.receive y event) y with ⟨-, heq⟩ | ⟨s', z, -, -, hmerged, heq⟩
    · rw [heq] at hto
      exact found_of_receive hp hto
    · rw [heq] at hmem
      have hmem' : y ∈ (s.receive y event).events.erase z := hmerged.frame.1 ▸ hmem
      exact absurd (hevents ▸ List.mem_of_mem_erase hmem') hp

theorem Sound.pairsOk (h : s.Sound) : s.PairsOk := fun p hp hfrom q hpair => by
  rcases h.partners_of_pair hp (.inl hfrom) hpair with hh | hh
  · rw [hh.to_action]
    decide
  · exact absurd (hfrom.symm.trans hh.to_action) (by decide)

theorem Sound.halves_pickEvents (h : s.Sound) (hxy : s.pickEvents.1.Halves x y) : s.Halves x y := by
  obtain ⟨-, hevents, hheap⟩ := pickEvents_eq h.nodup h.pairsOk
  have hsub := hxy.before
  rw [hevents] at hsub
  have hmem := (hsub.trans List.filter_sublist).subset (show x ∈ [x, y] by simp)
  have hx : s.pickEvents.1.heap x = s.heap x := (hheap x).resolve_right fun heq => by
    have hpair := hxy.from_pair
    simp [heq] at hpair
  have hfrom := hxy.from_action
  have hpair := hxy.from_pair
  rw [hx] at hfrom hpair
  rcases h.partners_of_pair hmem (.inl hfrom) hpair with hh | hh
  · exact hh
  · exact absurd (hfrom.symm.trans hh.to_action) (by decide)

theorem Sound.halves_checkEvents (h : s.Sound) (hxy : s.checkEvents.1.Halves x y) : s.Halves x y := by
  have hcongr : ∀ m : Merger, m.heap = s.heap → m.events = s.events → m.Halves x y → s.Halves x y := by
    intro m hheap hevents hm
    exact ⟨hevents ▸ hm.before, hheap ▸ hm.from_action, hheap ▸ hm.from_pair, hheap ▸ hm.to_action,
      hheap ▸ hm.to_pair, hheap ▸ hm.cookie_eq⟩
  rcases checkEvents_cases s with ⟨-, heq⟩ | ⟨-, heq⟩ | ⟨-, -, -, heq⟩ | ⟨-, -, -, heq⟩
  · exact hcongr _ (by rw [heq]) (by rw [heq]) hxy
  · exact hcongr _ (by rw [heq]) (by rw [heq]) hxy
  · rw [heq] at hxy
    exact h.halves_pickEvents hxy
  · rw [heq] at hxy
    exact hxy

theorem Sound.halves_doEventMerge (h : s.Sound) (hp : p ∉ s.events) (hok : s.FoundOk event)
    (hxy : (s.doEventMerge p event).1.Halves x y) :
    s.Halves x y ∨ y = p ∧ event.action = .renameToFile ∧ s.found event = some x :=
  h.halves_absorb hp ((h.absorb hp hok).halves_checkEvents hxy)

/-- What `do_event_merge` changes about other events. -/
theorem Sound.doEventMerge_touched (h : s.Sound) (hp : p ∉ s.events) (hok : s.FoundOk event)
    (hx : x ≠ p) (hne : (s.doEventMerge p event).1.heap x ≠ s.heap x) :
    event.action = .renameToFile ∧ s.found event = some x ∨ ∃ z, s.Partners z x := by
  by_cases hr : ((s.receive p event).absorb p).heap x = s.heap x
  · obtain ⟨z, hz⟩ := (h.absorb hp hok).checkEvents_touched (x := x) (by rw [hr]; exact hne)
    rcases h.halves_absorb hp hz with hz | ⟨hxp, -⟩
    · exact .inr ⟨z, .inl hz⟩
    · exact absurd hxp hx
  · exact h.absorb_touched hp hx hr

/-- A first half that is in the buffer when it has come in has no partner. -/
theorem Sound.doEventMerge_from (h : s.Sound) (hp : p ∉ s.events)
    (hfrom : event.action = .renameFromFile) (hmem : p ∈ (s.doEventMerge p event).1.events) :
    (s.doEventMerge p event).1.heap p = event.setPair none := by
  have hr : ((s.receive p event).absorb p).Sound :=
    h.absorb hp fun hto => absurd (hfrom.symm.trans hto) (by decide)
  have hmem' : p ∈ ((s.receive p event).absorb p).events :=
    hr.checkEvents_handed.perm.subset (List.mem_append_right _ hmem)
  have hevents := (receive_frame s event hp).1
  have habsorb : ((s.receive p event).absorb p).heap p = event.setPair none := by
    rcases absorb_cases (s.receive p event) p with ⟨-, heq⟩ | ⟨s', z, -, -, hmerged, heq⟩
    · rw [heq]
      rcases receive_cases s event hp with ⟨hto, -⟩ | ⟨e, heq', -, ⟨-, rfl⟩ | ⟨hto, -⟩⟩
      · exact absurd (hfrom.symm.trans hto) (by decide)
      · rw [heq', heap_update_self]
      · exact absurd (hfrom.symm.trans hto) (by decide)
    · rw [heq] at hmem'
      have hmem' : p ∈ (s.receive p event).events.erase z := hmerged.frame.1 ▸ hmem'
      exact absurd (hevents ▸ List.mem_of_mem_erase hmem') hp
  by_contra hne
  obtain ⟨z, hz⟩ := hr.checkEvents_touched (x := p) (by rw [habsorb]; exact hne)
  have hto := hz.to_action
  rw [habsorb] at hto
  exact absurd (hfrom.symm.trans hto) (by decide)

/-- A rename, the deletion of the file with the new name and the creation of one with the old name
leave nothing in an empty buffer. -/
theorem doEventMerge_cycle {n k : ℕ} (hevents : s.events = []) (hnumber : s.number = 0) :
    ∃ s', ((((s.doEventMerge n ⟨.renameFromFile, k, 1, [47, 97], none⟩).1.doEventMerge (n + 1)
        ⟨.renameToFile, k, 1, [47, 98], none⟩).1.doEventMerge (n + 2)
          ⟨.delFile, 0, 1, [47, 98], none⟩).1.doEventMerge (n + 3)
            ⟨.newFile, 0, 1, [47, 97], none⟩).1 = s' ∧ s'.events = [] ∧ s'.number = 0 := by
  obtain ⟨heap, events, number, pending, quit, freed, fault⟩ := s
  obtain rfl : events = [] := hevents
  obtain rfl : number = 0 := hnumber
  refine ⟨_, rfl, ?_⟩
  simp [doEventMerge, receive, pairing, absorb, checkEvents, update, VfsEvent.setPair, mergeEvent,
    actionMergeFns, Function.update_apply, mergeRenameToFile, mergeBufferSize, mergeDelFile, mergeGone,
    mergeNewFile, VfsEvent.cmpEventPath, writePair, removeEntry, Action.isNew, Action.code,
    VfsEvent.rewrite]

/-- A second half without a cookie finds a new file that stands before its first half. -/
theorem found_newFile {n : ℕ} (hevents : s.events = []) (hnumber : s.number = 0) :
    ∃ s', ((s.doEventMerge n ⟨.newFile, 0, 1, [47, 99], none⟩).1.doEventMerge (n + 1)
        ⟨.renameFromFile, 0, 1, [47, 97], none⟩).1 = s' ∧ s'.events = [n, n + 1] ∧
      (s'.heap n).action = .newFile ∧ s'.found ⟨.renameToFile, 0, 1, [47, 98], none⟩ = some n := by
  obtain ⟨heap, events, number, pending, quit, freed, fault⟩ := s
  obtain rfl : events = [] := hevents
  obtain rfl : number = 0 := hnumber
  refine ⟨_, rfl, ?_⟩
  simp [found, doEventMerge, receive, pairing, absorb, checkEvents, update, VfsEvent.setPair, mergeEvent,
    actionMergeFns, Function.update_apply, mergeBufferSize, mergeRenameFromFile, mergeGone,
    VfsEvent.cmpEventPath, Action.isNew, Action.code]

end Merger

/-! ## The handlers -/

/-- A call of `vfs_rename` that has succeeded: the addresses of its two events, and what they are. -/
structure Rename where
  fe : ℕ
  te : ℕ
  isDir : Bool
  dev : ℕ
  oldPath : Bytes
  newPath : Bytes
  cookie : ℕ
deriving DecidableEq

/-- `*fe` in `on_vfs_rename_ret` -/
def Rename.fromEvent (c : Rename) : VfsEvent :=
  ⟨if c.isDir then .renameFromFolder else .renameFromFile, c.cookie, c.dev, c.oldPath, none⟩

/-- `*te` in `on_vfs_rename_ret` -/
def Rename.toEvent (c : Rename) : VfsEvent :=
  ⟨if c.isDir then .renameToFolder else .renameToFile, c.cookie, c.dev, c.newPath, none⟩

/-- The buffer behind the kretprobes: `event_sync_cookie`, and the calls of `vfs_rename` that have got
their cookie. -/
structure Probes where
  monitor : Monitor
  eventSyncCookie : ℕ
  calls : List Rename

/-- What happens next: a handler passes an event that is no rename, with the cookie 0; the handler of
a rename takes a cookie, passes its first event, passes its second event; or the timer expires, a batch is
sent, the module is cleared up. -/
inductive Op where
  | other (p : ℕ) (action : Action) (dev : ℕ) (path : Bytes)
  | rename (fe te : ℕ) (isDir : Bool) (dev : ℕ) (oldPath newPath : Bytes)
  | passFrom (c : Rename)
  | passTo (c : Rename)
  | flush (a : Act)

namespace Probes

/-- The addresses of the events of renames. -/
def addresses (s : Probes) : List ℕ := s.calls.flatMap fun c => [c.fe, c.te]

/-- The addresses of the events that have been passed. -/
def passed (s : Probes) : List ℕ := s.monitor.passed.map Prod.fst

/-- The event that a step passes to `do_event_merge`. -/
def event : Op → Option (ℕ × VfsEvent)
  | .other p action dev path => some (p, ⟨action, 0, dev, path, none⟩)
  | .passFrom c => some (c.fe, c.fromEvent)
  | .passTo c => some (c.te, c.toEvent)
  | .rename .. | .flush _ => none

/-- One step, if it can happen. Every event is an object of its own, and a handler passes its second event
when it has passed the first. -/
def step (s : Probes) : Op → Option Probes
  | .other p action dev path =>
    if action.otherHalf.isSome ∨ p ∈ s.addresses then none
    else (s.monitor.step (.pass p ⟨action, 0, dev, path, none⟩)).map fun m => { s with monitor := m }
  | .rename fe te isDir dev oldPath newPath =>
    if fe = te ∨ fe ∈ s.addresses ++ s.passed ∨ te ∈ s.addresses ++ s.passed then none
    else
      let cookie := (s.eventSyncCookie + 1) % 2 ^ 32
      some { s with
        eventSyncCookie := cookie
        calls := s.calls ++ [⟨fe, te, isDir, dev, oldPath, newPath, cookie⟩] }
  | .passFrom c =>
    if c ∈ s.calls then
      (s.monitor.step (.pass c.fe c.fromEvent)).map fun m => { s with monitor := m }
    else none
  | .passTo c =>
    if c ∈ s.calls ∧ c.fe ∈ s.passed then
      (s.monitor.step (.pass c.te c.toEvent)).map fun m => { s with monitor := m }
    else none
  | .flush (.pass ..) => none
  | .flush a => (s.monitor.stepAny a).map fun m => { s with monitor := m }

/-- Nothing has happened yet. -/
def initial (heap : ℕ → VfsEvent) : Probes := ⟨Monitor.initial heap, 0, []⟩

/-- The states that runs reach whose steps meet a condition. -/
inductive Reachable (ok : Probes → Op → Prop) : Probes → Prop
  | initial (heap : ℕ → VfsEvent) : Reachable ok (initial heap)
  | step {s s' : Probes} {op : Op} (hs : Reachable ok s) (hok : ok s op)
      (hstep : s.step op = some s') : Reachable ok s'

variable {s s' : Probes} {op : Op} {p : ℕ} {e : VfsEvent}

/-- The events at `x` and `y` are the two halves of one call. -/
def OtherHalf (s : Probes) (x y : ℕ) : Prop :=
  ∃ c ∈ s.calls, c.fe = x ∧ c.te = y ∨ c.fe = y ∧ c.te = x

/-- The event that comes in is paired with the first half of its call at most, and of the other events
those are changed at most whose other half has come in or is in the buffer. -/
def PairsRight (s : Probes) (p : ℕ) (e : VfsEvent) : Prop :=
  (∀ q, ((s.monitor.merger.receive p e).heap p).pair = some q → ∃ c ∈ s.calls, c.fe = q ∧ c.te = p) ∧
  ∀ x, x ≠ p → (s.monitor.merger.doEventMerge p e).1.heap x ≠ s.monitor.merger.heap x →
    ∃ z ∈ p :: s.monitor.merger.events, s.OtherHalf z x

/-- When the second half of a rename of a file is passed, an event with its cookie is the first half of
the call, or stands behind that. -/
def MatchOk (s : Probes) : Op → Prop
  | .passTo c => c.isDir = false → ∀ q ∈ s.monitor.merger.events,
      (s.monitor.merger.heap q).cookie = c.cookie → q = c.fe ∨ Before s.monitor.merger.events c.fe q
  | _ => True

/-! ## The invariant -/

/-- The buffer is sound, the events of calls are different objects, a first half whose second half has
not been passed has no partner, and partners are the halves of one call. -/
structure Tied (s : Probes) : Prop where
  sound : s.monitor.merger.Sound
  events_passed : s.monitor.merger.events ⊆ s.passed
  fe_inj : ∀ c ∈ s.calls, ∀ c' ∈ s.calls, c.fe = c'.fe → c = c'
  te_inj : ∀ c ∈ s.calls, ∀ c' ∈ s.calls, c.te = c'.te → c = c'
  fe_ne_te : ∀ c ∈ s.calls, ∀ c' ∈ s.calls, c.fe ≠ c'.te
  unpaired : ∀ c ∈ s.calls, c.isDir = false → c.te ∉ s.passed →
    c.fe ∈ s.monitor.merger.events → s.monitor.merger.heap c.fe = c.fromEvent
  halves : ∀ x y, s.monitor.merger.Halves x y → ∃ c ∈ s.calls, c.fe = x ∧ c.te = y

namespace Tied

theorem initial (heap : ℕ → VfsEvent) : (initial heap).Tied := by
  refine ⟨⟨rfl, List.nodup_nil, ?_, rfl⟩, List.nil_subset _, ?_, ?_, ?_, ?_, fun x y h => ?_⟩
  · exact fun _ hx => absurd hx List.not_mem_nil
  · exact fun _ hc => absurd hc List.not_mem_nil
  · exact fun _ hc => absurd hc List.not_mem_nil
  · exact fun _ hc => absurd hc List.not_mem_nil
  · exact fun _ hc => absurd hc List.not_mem_nil
  · exact absurd (h.before.subset (show x ∈ [x, y] by simp)) List.not_mem_nil

/-- What is found for a second half is the first half of its call. -/
def Finds (s : Probes) (p : ℕ) (e : VfsEvent) : Prop :=
  e.action = .renameToFile → ∀ q, s.monitor.merger.found e = some q →
    ∃ c ∈ s.calls, c.isDir = false ∧ c.fe = q ∧ c.te = p

theorem foundOk (h : s.Tied) (hp : p ∉ s.passed) (hfinds : Finds s p e) :
    s.monitor.merger.FoundOk e := by
  intro hto q hq
  obtain ⟨c, hc, hfile, rfl, rfl⟩ := hfinds hto q hq
  rw [h.unpaired c hc hfile hp (Merger.mem_of_found hq).1]
  simp [Rename.fromEvent, hfile]

theorem otherHalf_of_partners (h : s.Tied) {x y : ℕ} (hxy : s.monitor.merger.Partners x y) :
    s.OtherHalf x y := by
  rcases hxy with hh | hh
  · obtain ⟨c, hc, hfe, hte⟩ := h.halves x y hh
    exact ⟨c, hc, .inl ⟨hfe, hte⟩⟩
  · obtain ⟨c, hc, hfe, hte⟩ := h.halves y x hh
    exact ⟨c, hc, .inr ⟨hfe, hte⟩⟩

theorem pairsRight (h : s.Tied) (hp : p ∉ s.passed) (hfinds : Finds s p e) : s.PairsRight p e := by
  have hpe : p ∉ s.monitor.merger.events := fun hmem => hp (h.events_passed hmem)
  refine ⟨fun q hpair => ?_, fun x hx hne => ?_⟩
  · obtain ⟨hto, hfound⟩ := Merger.found_of_receive hpe hpair
    obtain ⟨c, hc, -, hfe, hte⟩ := hfinds hto q hfound
    exact ⟨c, hc, hfe, hte⟩
  · rcases h.sound.doEventMerge_touched hpe (h.foundOk hp hfinds) hx hne with ⟨hto, hfound⟩ | ⟨z, hz⟩
    · obtain ⟨c, hc, -, hfe, hte⟩ := hfinds hto x hfound
      exact ⟨p, by simp, c, hc, .inr ⟨hfe, hte⟩⟩
    · exact ⟨z, List.mem_cons_of_mem _ hz.mem, h.otherHalf_of_partners hz⟩

/-- An event is passed. -/
theorem pass (h : s.Tied) (hp : p ∉ s.passed) (hfinds : Finds s p e)
    (hfrom : ∀ c ∈ s.calls, c.fe = p → e = c.fromEvent) {m : Monitor}
    (hstep : s.monitor.step (.pass p e) = some m) : ({ s with monitor := m } : Probes).Tied := by
  rw [Monitor.step, if_neg (show p ∉ s.monitor.passed.map Prod.fst from hp)] at hstep
  obtain rfl := Option.some.inj hstep
  have hpe : p ∉ s.monitor.merger.events := fun hmem => hp (h.events_passed hmem)
  have hok := h.foundOk hp hfinds
  obtain ⟨hsound, hperm, -, -⟩ := h.sound.doEventMerge_spec hpe hok
  have hsub : (s.monitor.merger.doEventMerge p e).1.events ⊆ p :: s.monitor.merger.events := by
    have hr := h.sound.absorb hpe hok
    obtain ⟨-, -, -, hsub, -, -⟩ := Merger.absorb_frame s.monitor.merger e hpe
    exact fun x hx => hsub (hr.checkEvents_handed.perm.subset (List.mem_append_right _ hx))
  have hpassed : (s.monitor.passed ++ [(p, e)]).map Prod.fst = s.passed ++ [p] := by
    rw [List.map_append]
    rfl
  refine ⟨hsound, fun x hx => ?_, h.fe_inj, h.te_inj, h.fe_ne_te, fun c hc hfile hte hfe => ?_,
    fun x y hxy => ?_⟩
  · show x ∈ (s.monitor.passed ++ [(p, e)]).map Prod.fst
    rw [hpassed, List.mem_append]
    rcases List.mem_cons.mp (hsub hx) with rfl | hx
    · exact .inr (by simp)
    · exact .inl (h.events_passed hx)
  · change c.te ∉ (s.monitor.passed ++ [(p, e)]).map Prod.fst at hte
    rw [hpassed, List.mem_append, not_or, List.mem_singleton] at hte
    change c.fe ∈ (s.monitor.merger.doEventMerge p e).1.events at hfe
    show (s.monitor.merger.doEventMerge p e).1.heap c.fe = _
    by_cases hfep : c.fe = p
    · rw [hfep] at hfe ⊢
      have he := hfrom c hc hfep
      have hact : e.action = .renameFromFile := by simp [he, Rename.fromEvent, hfile]
      rw [h.sound.doEventMerge_from hpe hact hfe, he]
      rfl
    · have hfe' := (List.mem_cons.mp (hsub hfe)).resolve_left hfep
      have hold := h.unpaired c hc hfile hte.1 hfe'
      rw [← hold]
      by_contra hne
      rcases h.sound.doEventMerge_touched hpe hok hfep hne with ⟨hto, hfound⟩ | ⟨z, hz⟩
      · obtain ⟨c', hc', -, hfe', hte'⟩ := hfinds hto c.fe hfound
        obtain rfl := h.fe_inj c' hc' c hc hfe'
        exact hte.2 hte'
      · have hpair := hz.symm.pair_eq
        rw [hold] at hpair
        simp [Rename.fromEvent] at hpair
  · rcases h.sound.halves_doEventMerge hpe hok hxy with hh | ⟨rfl, hto, hfound⟩
    · exact h.halves x y hh
    · obtain ⟨c, hc, -, hfe, hte⟩ := hfinds hto x hfound
      exact ⟨c, hc, hfe, hte⟩

/-- The timer, a batch on its way and the end of the module change nothing about pairs. -/
theorem flush (h : s.Tied) {a : Act} (hpass : ∀ p e, a ≠ .pass p e) {m : Monitor}
    (hstep : s.monitor.stepAny a = some m) : ({ s with monitor := m } : Probes).Tied := by
  have hcongr : ∀ m' : Monitor, m'.merger.Sound → m'.merger.heap = s.monitor.merger.heap →
      m'.merger.events = s.monitor.merger.events → m'.passed = s.monitor.passed →
      ({ s with monitor := m' } : Probes).Tied := by
    intro m' hsound hheap hevents hpassed
    refine ⟨hsound, ?_, h.fe_inj, h.te_inj, h.fe_ne_te, fun c hc hfile hte hfe => ?_, fun x y hxy => ?_⟩
    · show m'.merger.events ⊆ m'.passed.map Prod.fst
      rw [hevents, hpassed]
      exact h.events_passed
    · rw [hheap]
      exact h.unpaired c hc hfile (by rwa [passed, hpassed] at hte) (by rwa [hevents] at hfe)
    · have hxy' : s.monitor.merger.Halves x y := ⟨hevents ▸ hxy.before, hheap ▸ hxy.from_action,
        hheap ▸ hxy.from_pair, hheap ▸ hxy.to_action, hheap ▸ hxy.to_pair, hheap ▸ hxy.cookie_eq⟩
      exact h.halves x y hxy'
  cases a with
  | pass p e => exact absurd rfl (hpass p e)
  | expire =>
    have hstep : s.monitor.step .expire = some m := hstep
    rw [Monitor.step] at hstep
    split at hstep
    · obtain rfl := Option.some.inj hstep
      have hs : ({ s.monitor.merger with pending := false } : Merger).Sound := h.sound.congr rfl rfl rfl rfl
      have hhanded := (Merger.pickEvents_spec hs).handed hs
      have hevents : s.monitor.merger.eventTimeoutNotifyCallback.1.events ⊆ s.monitor.merger.events :=
        fun x hx => hhanded.perm.subset (List.mem_append_right _ hx)
      refine ⟨hhanded.sound, fun x hx => h.events_passed (hevents hx), h.fe_inj, h.te_inj, h.fe_ne_te,
        fun c hc hfile hte hfe => ?_, fun x y hxy => ?_⟩
      · rw [← h.unpaired c hc hfile hte (hevents hfe)]
        by_contra hne
        obtain ⟨z, hz⟩ := hs.pickEvents_touched hne
        have hto : (s.monitor.merger.heap c.fe).action = .renameToFile := hz.to_action
        rw [h.unpaired c hc hfile hte (hevents hfe)] at hto
        simp [Rename.fromEvent, hfile] at hto
      · have hh := hs.halves_pickEvents hxy
        exact h.halves x y ⟨hh.before, hh.from_action, hh.from_pair, hh.to_action, hh.to_pair,
          hh.cookie_eq⟩
    · simp at hstep
  | send i =>
    have hstep : s.monitor.step (.send i) = some m := hstep
    rw [Monitor.step] at hstep
    split at hstep
    · obtain rfl := Option.some.inj hstep
      exact hcongr _ (h.sound.congr rfl rfl rfl rfl) rfl rfl rfl
    · simp at hstep
  | finish i =>
    have hstep : s.monitor.step (.finish i) = some m := hstep
    rw [Monitor.step] at hstep
    split at hstep
    · obtain rfl := Option.some.inj hstep
      have hheap := s.monitor.merger.heap_rearm
      have hevents := s.monitor.merger.events_rearm
      exact hcongr _ (h.sound.congr hheap hevents s.monitor.merger.number_rearm s.monitor.merger.fault_rearm)
        hheap hevents rfl
    · simp at hstep
  | clearup =>
    obtain rfl := Option.some.inj hstep
    exact hcongr _ (h.sound.congr rfl rfl rfl rfl) rfl rfl rfl

/-- The condition says that what is found is the first half of the call. -/
theorem matchOk_iff (h : s.Tied) {c : Rename} (hc : c ∈ s.calls) (hte : c.te ∉ s.passed) :
    s.MatchOk (.passTo c) ↔
      (c.isDir = false → ∀ q, s.monitor.merger.found c.toEvent = some q → q = c.fe) := by
  refine forall_congr' fun hfile => ⟨fun hok q hq => ?_, fun hfound q hq hcookie => ?_⟩
  · obtain ⟨hmem, hcookie⟩ := Merger.mem_of_found hq
    refine (hok q hmem hcookie).resolve_right fun hbefore => ?_
    -- the search would have stopped at the first half of the call
    obtain ⟨-, l₁, l₂, hsplit, hnone⟩ := List.find?_eq_some_iff_append.mp hq
    have hfe : s.monitor.merger.heap c.fe = c.fromEvent :=
      h.unpaired c hc hfile hte hbefore.left_mem
    have hnodup := h.sound.nodup
    rw [hsplit] at hbefore hnodup
    have hmem₁ : c.fe ∈ l₁ := by
      rw [before_append, before_cons] at hbefore
      rcases hbefore with hb | ⟨hb, -⟩ | ⟨-, hb⟩ | hb
      · exact hb.left_mem
      · exact hb
      · exact absurd hb (List.nodup_cons.mp (List.nodup_append.mp hnodup).2.1).1
      · exact absurd hb.right_mem (List.nodup_cons.mp (List.nodup_append.mp hnodup).2.1).1
    have hnot := hnone c.fe hmem₁
    rw [hfe] at hnot
    simp [Rename.fromEvent, Rename.toEvent] at hnot
  · cases hcase : s.monitor.merger.found c.toEvent with
    | none => exact absurd (decide_eq_true hcookie) (List.find?_eq_none.mp hcase q hq)
    | some w =>
      obtain rfl := hfound w hcase
      obtain ⟨-, l₁, l₂, hsplit, hnone⟩ := List.find?_eq_some_iff_append.mp hcase
      rw [hsplit, List.mem_append, List.mem_cons] at hq
      rcases hq with hq | rfl | hq
      · have hnot := hnone q hq
        simp [Rename.toEvent, hcookie] at hnot
      · exact .inl rfl
      · right
        rw [hsplit, before_append, before_cons]
        exact .inr (.inr (.inl ⟨rfl, hq⟩))

/-! ## Runs -/

/-- A step that passes an event passes a new one, and its address says which half of which call it is. -/
theorem passes (h : s.Tied) (hstep : s.step op = some s') (hevent : event op = some (p, e)) :
    p ∉ s.passed ∧ (s.MatchOk op → Finds s p e) ∧ (∀ c ∈ s.calls, c.fe = p → e = c.fromEvent) ∧
      ∃ m, s.monitor.step (.pass p e) = some m ∧ s' = { s with monitor := m } := by
  have hfresh : ∀ {m}, s.monitor.step (.pass p e) = some m → p ∉ s.passed := fun {m} hm hp => by
    rw [Monitor.step, if_pos (show p ∈ s.monitor.passed.map Prod.fst from hp)] at hm
    simp at hm
  cases op with
  | other p' action dev path =>
    obtain ⟨rfl, rfl⟩ := Prod.mk.inj (Option.some.inj hevent)
    rw [step] at hstep
    split at hstep
    · simp at hstep
    rename_i hguard
    rw [not_or] at hguard
    obtain ⟨m, hm, rfl⟩ := Option.map_eq_some_iff.mp hstep
    refine ⟨hfresh hm, fun _ hto => absurd ?_ hguard.1, fun c hc hfe => absurd ?_ hguard.2, m, hm, rfl⟩
    · rw [show action = _ from hto]
      rfl
    · exact List.mem_flatMap.mpr ⟨c, hc, by simp [hfe]⟩
  | rename => simp [event] at hevent
  | passFrom c =>
    obtain ⟨rfl, rfl⟩ := Prod.mk.inj (Option.some.inj hevent)
    rw [step] at hstep
    split at hstep
    · rename_i hc
      obtain ⟨m, hm, rfl⟩ := Option.map_eq_some_iff.mp hstep
      refine ⟨hfresh hm, fun _ hto => ?_, fun c' hc' hfe => ?_, m, hm, rfl⟩
      · simp only [Rename.fromEvent] at hto
        split at hto <;> simp at hto
      · rw [h.fe_inj c' hc' c hc hfe]
    · simp at hstep
  | passTo c =>
    obtain ⟨rfl, rfl⟩ := Prod.mk.inj (Option.some.inj hevent)
    rw [step] at hstep
    split at hstep
    · rename_i hc
      obtain ⟨m, hm, rfl⟩ := Option.map_eq_some_iff.mp hstep
      refine ⟨hfresh hm, fun hok hto q hq => ?_, fun c' hc' hfe => ?_, m, hm, rfl⟩
      · have hfile : c.isDir = false := by
          rw [← Bool.not_eq_true]
          intro hdir
          simp [Rename.toEvent, hdir] at hto
        exact ⟨c, hc.1, hfile, ((h.matchOk_iff hc.1 (hfresh hm)).mp hok hfile q hq).symm, rfl⟩
      · exact absurd hfe (h.fe_ne_te c' hc' c hc.1)
    · simp at hstep
  | flush a => simp [event] at hevent

theorem step (h : s.Tied) (hok : s.MatchOk op) (hstep : s.step op = some s') : s'.Tied := by
  cases hevent : event op with
  | some pe =>
    obtain ⟨p, e⟩ := pe
    obtain ⟨hp, hfinds, hfrom, m, hm, rfl⟩ := h.passes hstep hevent
    exact h.pass hp (hfinds hok) hfrom hm
  | none =>
    cases op with
    | other | passFrom | passTo => simp [event] at hevent
    | rename fe te isDir dev oldPath newPath =>
      rw [Probes.step] at hstep
      split at hstep
      · simp at hstep
      rename_i hguard
      simp only [not_or, List.mem_append] at hguard
      obtain ⟨hne, ⟨hfe, hfep⟩, hte, htep⟩ := hguard
      obtain rfl := Option.some.inj hstep
      have hother : ∀ c ∈ s.calls, c.fe ≠ fe ∧ c.fe ≠ te ∧ c.te ≠ fe ∧ c.te ≠ te := fun c hc => by
        have haddr : ∀ x, x = c.fe ∨ x = c.te → x ∈ s.addresses := fun x hx =>
          List.mem_flatMap.mpr ⟨c, hc, by simpa using hx⟩
        refine ⟨?_, ?_, ?_, ?_⟩
        · exact fun heq => hfe (haddr fe (.inl heq.symm))
        · exact fun heq => hte (haddr te (.inl heq.symm))
        · exact fun heq => hfe (haddr fe (.inr heq.symm))
        · exact fun heq => hte (haddr te (.inr heq.symm))
      refine ⟨h.sound, h.events_passed, ?_, ?_, ?_, ?_, fun x y hxy => ?_⟩
      · intro c hc c' hc' heq
        rcases List.mem_append.mp hc with hc | hc <;> rcases List.mem_append.mp hc' with hc' | hc'
        · exact h.fe_inj c hc c' hc' heq
        · exact absurd (by rw [heq, List.mem_singleton.mp hc']) (hother c hc).1
        · exact absurd (by rw [← heq, List.mem_singleton.mp hc]) (hother c' hc').1
        · rw [List.mem_singleton.mp hc, List.mem_singleton.mp hc']
      · intro c hc c' hc' heq
        rcases List.mem_append.mp hc with hc | hc <;> rcases List.mem_append.mp hc' with hc' | hc'
        · exact h.te_inj c hc c' hc' heq
        · exact absurd (by rw [heq, List.mem_singleton.mp hc']) (hother c hc).2.2.2
        · exact absurd (by rw [← heq, List.mem_singleton.mp hc]) (hother c' hc').2.2.2
        · rw [List.mem_singleton.mp hc, List.mem_singleton.mp hc']
      · intro c hc c' hc' heq
        rcases List.mem_append.mp hc with hc | hc <;> rcases List.mem_append.mp hc' with hc' | hc'
        · exact h.fe_ne_te c hc c' hc' heq
        · exact absurd (by rw [heq, List.mem_singleton.mp hc']) (hother c hc).2.1
        · exact absurd (by rw [← heq, List.mem_singleton.mp hc]) (hother c' hc').2.2.1
        · rw [List.mem_singleton.mp hc, List.mem_singleton.mp hc'] at heq
          exact hne heq
      · intro c hc hfile hct hcf
        rcases List.mem_append.mp hc with hc | hc
        · exact h.unpaired c hc hfile hct hcf
        · rw [List.mem_singleton.mp hc] at hcf
          exact absurd (h.events_passed hcf) hfep
      · obtain ⟨c, hc, hpair⟩ := h.halves x y hxy
        exact ⟨c, List.mem_append_left _ hc, hpair⟩
    | flush a =>
      cases a with
      | pass p e => simp [Probes.step] at hstep
      | expire | send | finish | clearup =>
        rw [Probes.step] at hstep
        · obtain ⟨m, hm, rfl⟩ := Option.map_eq_some_iff.mp hstep
          exact h.flush (by simp) hm
        · simp

end Tied

theorem Reachable.tied (h : Reachable MatchOk s) : s.Tied := by
  induction h with
  | initial heap => exact .initial heap
  | step _ hok hstep ih => exact ih.step hok hstep

/-- In every run in which the first buffered event with the cookie of a rename is its first half, the
pairs in the buffer are the halves of one call; and an event is paired and changes others as it should
just if that holds of it. -/
theorem reachable_pairs (h : Reachable MatchOk s) :
    (∀ z ∈ s.monitor.merger.events, (s.monitor.merger.heap z).action = .renameFromFile ∨
        (s.monitor.merger.heap z).action = .renameToFile → ∀ q,
          (s.monitor.merger.heap z).pair = some q → s.OtherHalf z q) ∧
      ∀ op s' p e, s.step op = some s' → event op = some (p, e) →
        (s.PairsRight p e ↔ s.MatchOk op) := by
  have htied := h.tied
  refine ⟨fun z hz hact q hpair => ?_, fun op s' p e hstep hevent => ?_⟩
  · exact htied.otherHalf_of_partners (htied.sound.partners_of_pair hz hact hpair)
  obtain ⟨hp, hfinds, -, -⟩ := htied.passes hstep hevent
  refine ⟨fun hright => ?_, fun hok => htied.pairsRight hp (hfinds hok)⟩
  cases op with
  | other | rename | passFrom | flush => trivial
  | passTo c =>
    obtain ⟨rfl, rfl⟩ := Prod.mk.inj (Option.some.inj hevent)
    rw [Probes.step] at hstep
    split at hstep
    · rename_i hc
      refine (htied.matchOk_iff hc.1 hp).mpr fun hfile q hq => ?_
      have hto : c.toEvent.action = .renameToFile := by simp [Rename.toEvent, hfile]
      have hpe : c.te ∉ s.monitor.merger.events := fun hmem => hp (htied.events_passed hmem)
      obtain ⟨c', hc', hfe, hte⟩ := hright.1 q (by
        rw [Merger.receive_found hpe hto hq, Merger.heap_update_self]
        rfl)
      rw [← hfe, htied.te_inj c' hc' c hc.1 hte]
    · simp at hstep

theorem reachable_pairs_sample : ∃ (s s' : Probes) (c : Rename), s.step (.passTo c) = some s' ∧
    c.cookie = 1 ∧ s.PairsRight c.te c.toEvent := by
  have hinitial : Reachable MatchOk (initial fun _ => Monitor.fileEvent .newFile 0 []) := .initial _
  obtain ⟨s₁, h₁⟩ : ∃ s₁, (initial fun _ => Monitor.fileEvent .newFile 0 []).step
      (.rename 0 1 false 1 [47, 97] [47, 98]) = some s₁ := ⟨_, rfl⟩
  obtain ⟨s₂, h₂⟩ : ∃ s₂, s₁.step (.passFrom ⟨0, 1, false, 1, [47, 97], [47, 98], 1⟩) = some s₂ := by
    obtain rfl := Option.some.inj h₁
    exact ⟨_, rfl⟩
  have hreach₁ : Reachable MatchOk s₁ := .step hinitial (show MatchOk _ (.rename ..) from trivial) h₁
  have hreach : Reachable MatchOk s₂ := .step hreach₁ (show MatchOk _ (.passFrom _) from trivial) h₂
  obtain rfl := Option.some.inj h₁
  obtain rfl := Option.some.inj h₂
  exact ⟨_, _, ⟨0, 1, false, 1, [47, 97], [47, 98], 1⟩, rfl, rfl,
    ((reachable_pairs hreach).2 (.passTo ⟨0, 1, false, 1, [47, 97], [47, 98], 1⟩) _ _ _ rfl rfl).mpr
      fun _ q hq _ => .inl (List.mem_singleton.mp hq)⟩

/-! ## Around the counter -/

/-- The state after an event has been passed. -/
def afterPass (s : Probes) (p : ℕ) (e : VfsEvent) : Probes :=
  { s with
    monitor := { s.monitor.leave (s.monitor.merger.doEventMerge p e) with
      passed := s.monitor.passed ++ [(p, e)] } }

@[simp] theorem merger_afterPass (s : Probes) (p : ℕ) (e : VfsEvent) :
    (s.afterPass p e).monitor.merger = (s.monitor.merger.doEventMerge p e).1 := rfl

@[simp] theorem calls_afterPass (s : Probes) (p : ℕ) (e : VfsEvent) :
    (s.afterPass p e).calls = s.calls := rfl

@[simp] theorem addresses_afterPass (s : Probes) (p : ℕ) (e : VfsEvent) :
    (s.afterPass p e).addresses = s.addresses := rfl

@[simp] theorem eventSyncCookie_afterPass (s : Probes) (p : ℕ) (e : VfsEvent) :
    (s.afterPass p e).eventSyncCookie = s.eventSyncCookie := rfl

@[simp] theorem passed_afterPass (s : Probes) (p : ℕ) (e : VfsEvent) :
    (s.afterPass p e).passed = s.passed ++ [p] := by
  simp [passed, afterPass]

theorem monitor_step_pass (hp : p ∉ s.passed) :
    s.monitor.step (.pass p e) = some (s.afterPass p e).monitor := by
  rw [Monitor.step, if_neg (show p ∉ s.monitor.passed.map Prod.fst from hp)]
  rfl

theorem step_other {action : Action} (hother : action.otherHalf = none) (hp : p ∉ s.addresses)
    (hpassed : p ∉ s.passed) (dev : ℕ) (path : Bytes) :
    s.step (.other p action dev path) = some (s.afterPass p ⟨action, 0, dev, path, none⟩) := by
  rw [step, if_neg (by simp [hother, hp]), monitor_step_pass hpassed]
  rfl

theorem step_passFrom {c : Rename} (hc : c ∈ s.calls) (hpassed : c.fe ∉ s.passed) :
    s.step (.passFrom c) = some (s.afterPass c.fe c.fromEvent) := by
  rw [step, if_pos hc, monitor_step_pass hpassed]
  rfl

theorem step_passTo {c : Rename} (hc : c ∈ s.calls) (hfe : c.fe ∈ s.passed) (hpassed : c.te ∉ s.passed) :
    s.step (.passTo c) = some (s.afterPass c.te c.toEvent) := by
  rw [step, if_pos ⟨hc, hfe⟩, monitor_step_pass hpassed]
  rfl

/-- The counter takes every value, with nothing in the buffer. -/
theorem exists_cookie (k : ℕ) (hk : k < 2 ^ 32) : ∃ (s : Probes) (n : ℕ),
    Reachable (fun _ _ => True) s ∧ s.eventSyncCookie = k ∧ s.monitor.merger.events = [] ∧
      s.monitor.merger.number = 0 ∧ (∀ x ∈ s.addresses, x < n) ∧ ∀ x ∈ s.passed, x < n := by
  induction k with
  | zero =>
    refine ⟨initial fun _ => Monitor.fileEvent .newFile 0 [], 0, .initial _, rfl, rfl, rfl, ?_, ?_⟩
    · exact fun _ hx => absurd hx List.not_mem_nil
    · exact fun _ hx => absurd hx List.not_mem_nil
  | succ k ih =>
    obtain ⟨s, n, hs, hcookie, hevents, hnumber, haddr, hpassed⟩ := ih (by omega)
    have hfree : ∀ i, n + i ∉ s.addresses ∧ n + i ∉ s.passed := fun i =>
      ⟨fun hmem => absurd (haddr _ hmem) (by omega), fun hmem => absurd (hpassed _ hmem) (by omega)⟩
    generalize hc : (⟨n, n + 1, false, 1, [47, 97], [47, 98], k + 1⟩ : Rename) = c
    have hfe : c.fe = n := by rw [← hc]
    have hte : c.te = n + 1 := by rw [← hc]
    generalize hs₁ : ({ s with eventSyncCookie := k + 1, calls := s.calls ++ [c] } : Probes) = s₁
    have hcall : c ∈ s₁.calls := by rw [← hs₁]; simp
    have haddr₁ : ∀ x, x ∈ s₁.addresses ↔ x ∈ s.addresses ∨ x = n ∨ x = n + 1 := fun x => by
      rw [← hs₁, ← hc]
      simp [addresses]
    have hpassed₁ : s₁.passed = s.passed := by rw [← hs₁]; rfl
    have h₁ : s.step (.rename n (n + 1) false 1 [47, 97] [47, 98]) = some s₁ := by
      rw [step, if_neg (by simp [hfree 1, show n ∉ s.addresses from (hfree 0).1,
        show n ∉ s.passed from (hfree 0).2])]
      simp only [hcookie, Nat.mod_eq_of_lt hk]
      rw [hc, hs₁]
    have h₂ := step_passFrom hcall (by rw [hpassed₁, hfe]; exact (hfree 0).2)
    have h₃ : (s₁.afterPass c.fe c.fromEvent).step (.passTo c) = some _ :=
      step_passTo hcall (by simp) (by simp [hpassed₁, hte, hfe, hfree 1])
    have h₄ : ((s₁.afterPass c.fe c.fromEvent).afterPass c.te c.toEvent).step
        (.other (n + 2) .delFile 1 [47, 98]) = some _ :=
      step_other rfl (by simp [haddr₁, hfree 2]) (by simp [hpassed₁, hte, hfe, hfree 2]) 1 [47, 98]
    have h₅ : (((s₁.afterPass c.fe c.fromEvent).afterPass c.te c.toEvent).afterPass (n + 2)
        ⟨.delFile, 0, 1, [47, 98], none⟩).step (.other (n + 3) .newFile 1 [47, 97]) = some _ :=
      step_other rfl (by simp [haddr₁, hfree 3]) (by simp [hpassed₁, hte, hfe, hfree 3]) 1 [47, 97]
    obtain ⟨m, hm, hevents', hnumber'⟩ :=
      s.monitor.merger.doEventMerge_cycle (n := n) (k := k + 1) hevents hnumber
    have hlast := Reachable.step (.step (.step (.step (.step hs trivial h₁) trivial h₂) trivial h₃)
      trivial h₄) trivial h₅
    refine ⟨_, n + 4, hlast, ?_, ?_, ?_, fun x hx => ?_, fun x hx => ?_⟩
    · rw [← hs₁]
      rfl
    · rw [← hs₁, ← hc]
      exact (congrArg Merger.events hm).trans hevents'
    · rw [← hs₁, ← hc]
      exact (congrArg Merger.number hm).trans hnumber'
    · simp only [addresses_afterPass, haddr₁] at hx
      rcases hx with hx | rfl | rfl
      · have := haddr x hx
        omega
      · omega
      · omega
    · simp only [passed_afterPass, hpassed₁, hfe, hte, List.mem_append, List.mem_singleton] at hx
      rcases hx with (((hx | rfl) | rfl) | rfl) | rfl
      · have := hpassed x hx
        omega
      all_goals omega

/-- After 2³² renames the cookie is that of a file that has been made meanwhile, and this is taken for
the first half of the rename. -/
theorem reachable_not_pairsRight : ∃ (s s' : Probes) (c : Rename) (q : ℕ),
    Reachable (fun _ _ => True) s ∧ s.step (.passTo c) = some s' ∧
      (s.monitor.merger.heap q).action = .newFile ∧
      ((s.monitor.merger.receive c.te c.toEvent).heap c.te).pair = some q ∧
      ¬ s.PairsRight c.te c.toEvent := by
  obtain ⟨s, n, hs, hcookie, hevents, hnumber, haddr, hpassed⟩ :=
    exists_cookie (2 ^ 32 - 1) (by decide)
  have hfree : ∀ i, n + i ∉ s.addresses ∧ n + i ∉ s.passed := fun i =>
    ⟨fun hmem => absurd (haddr _ hmem) (by omega), fun hmem => absurd (hpassed _ hmem) (by omega)⟩
  generalize hc : (⟨n + 1, n + 2, false, 1, [47, 97], [47, 98], 0⟩ : Rename) = c
  have hfe : c.fe = n + 1 := by rw [← hc]
  have hte : c.te = n + 2 := by rw [← hc]
  generalize hs₂ : ({ s.afterPass n ⟨.newFile, 0, 1, [47, 99], none⟩ with
    eventSyncCookie := 0, calls := s.calls ++ [c] } : Probes) = s₂
  have hcall : c ∈ s₂.calls := by rw [← hs₂]; simp
  have hpassed₂ : s₂.passed = s.passed ++ [n] := by
    rw [← hs₂]
    exact passed_afterPass s n _
  have h₁ : s.step (.other n .newFile 1 [47, 99]) = some _ :=
    step_other rfl (hfree 0).1 (hfree 0).2 1 [47, 99]
  have h₂ : (s.afterPass n ⟨.newFile, 0, 1, [47, 99], none⟩).step
      (.rename (n + 1) (n + 2) false 1 [47, 97] [47, 98]) = some s₂ := by
    rw [step, if_neg (by simp [hfree 1, hfree 2])]
    simp only [eventSyncCookie_afterPass, hcookie, calls_afterPass]
    rw [show (2 ^ 32 - 1 + 1) % 2 ^ 32 = 0 by decide, hc]
    exact congrArg some hs₂
  have h₃ := step_passFrom hcall (by simp [hpassed₂, hfe, hfree 1])
  have h₄ : (s₂.afterPass c.fe c.fromEvent).step (.passTo c) = some _ :=
    step_passTo hcall (by simp) (by simp [hpassed₂, hte, hfe, hfree 2])
  obtain ⟨m, hm, hevents', hnew, hfound⟩ :=
    s.monitor.merger.found_newFile (n := n) hevents hnumber
  have hmerger : (s₂.afterPass c.fe c.fromEvent).monitor.merger = m := by
    rw [← hs₂, ← hc]
    exact hm
  have hpair : (((s₂.afterPass c.fe c.fromEvent).monitor.merger.receive c.te c.toEvent).heap
      c.te).pair = some n := by
    rw [hmerger, Merger.receive_found (q := n) (by rw [hevents', hte]; simp) (by rw [← hc]; rfl)
      (by rw [← hc]; exact hfound), Merger.heap_update_self]
    rfl
  refine ⟨_, _, c, n, .step (.step (.step hs trivial h₁) trivial h₂) trivial h₃, h₄,
    by rw [hmerger]; exact hnew, hpair, fun hright => ?_⟩
  obtain ⟨c', hc', hfe', -⟩ := hright.1 n hpair
  have hc' : c' ∈ s.calls ++ [c] := by rwa [calls_afterPass, ← hs₂] at hc'
  rcases List.mem_append.mp hc' with hc' | hc'
  · exact (hfree 0).1 (List.mem_flatMap.mpr ⟨c', hc', by simp [hfe']⟩)
  · rw [List.mem_singleton.mp hc', hfe] at hfe'
    omega

end Probes

end DeepinAnything.EventMerge
