import DeepinAnything.Server.EventSource

/-!
# From the netlink socket to the queue (`eventsource_genl.cpp`, `server.cpp`)

`getEvent` lets `nl_recvmsgs` call `handleMsg` for the messages that have come, and then looks at `new_msg`.
The flag and the buffer for the event are those of the source: a second message takes the place of the first
one, and where no message has come they are still what the last one has left.
-/

namespace DeepinAnything.Server

open ByteMem EventMerge

/-! ## The code -/

/-- The string `insert:`. -/
def insertAction : Bytes := [105, 110, 115, 101, 114, 116, 58]

/-- The string `remove:`. -/
def removeAction : Bytes := [114, 101, 109, 111, 118, 101, 58]

/-- What `getEvent` hands on. -/
structure ServerEvent where
  act : ℕ
  src : Bytes
  dst : Option Bytes
deriving DecidableEq, Repr

/-- The pair that `Server::run` pushes for an event. -/
def ServerEvent.actionPair (e : ServerEvent) : Bytes × Bytes :=
  match actionOfCode e.act with
  | some .newFile | some .newSymlink | some .newLink | some .newFolder => (insertAction, e.src)
  | some .delFile | some .delFolder => (removeAction, e.src)
  | some .renameFile | some .renameFolder => (e.src, e.dst.getD [])
  | _ => ([], [])

/-- The messages for which `nl_recvmsgs` calls `handleMsg`, each with the mount table at that time. There are
none if nothing could be received. -/
abbrev Delivery := List (Option (List MountLine) × Option Attrs)

namespace EventSource

variable (s : EventSource)

/-- `nl_recvmsgs` -/
def recvmsgs (s : EventSource) : Delivery → Option EventSource
  | [] => some s
  | (mountInfo, msg) :: msgs => (s.handleMsg mountInfo msg).bind (recvmsgs · msgs)

/-- What is in the buffer of the source. -/
def saved : ServerEvent := ⟨s.act, s.src, s.dst⟩

/-- `getEvent` -/
def getEvent (msgs : Delivery) : Option (EventSource × Option ServerEvent) :=
  (s.recvmsgs msgs).map fun s => (s, if s.newMsg then some s.saved else none)

end EventSource

/-- The event source, the events that `handleMsg` has accepted, and the pairs that `Server::run` has
pushed. -/
structure ServerRun where
  source : EventSource
  accepted : List ServerEvent
  pushed : List (Bytes × Bytes)

namespace EventSource

/-- The events that `handleMsg` accepts, with `new_msg` set when it returns. -/
def acceptedOf (s : EventSource) : Delivery → List ServerEvent
  | [] => []
  | (mountInfo, msg) :: msgs =>
    match s.handleMsg mountInfo msg with
    | none => []
    | some s => (if s.newMsg then [s.saved] else []) ++ acceptedOf s msgs

/-- The messages that `handleMsg` accepts: changes of files of known devices that fit into the buffer, and
second halves of renames whose first half is on record. -/
def accepts (s : EventSource) (msg : Option Attrs) : Prop :=
  ∃ r, s.received msg = some r ∧
    ((r.isFrom = false ∧ r.isTo = false ∧ r.action ≠ .renameFile ∧ r.action ≠ .renameFolder ∧
        (r.root.getD []).length + r.path.length + 1 ≤ sizeofBuf) ∨
      (r.isTo = true ∧ ∃ source, s.renameFrom r.cookie = some source ∧ r.Fits source))

variable {s s' : EventSource} {mountInfo : Option (List MountLine)} {msg : Option Attrs} {r : Received}

/-- A change of a file is accepted if its path fits. -/
theorem handleMsg_single_newMsg (h : s.received msg = some r) (hfrom : r.isFrom = false) (hto : r.isTo = false)
    (hstep : s.handleMsg mountInfo msg = some s') :
    s'.newMsg = true ↔ r.action ≠ .renameFile ∧ r.action ≠ .renameFolder ∧
      (r.root.getD []).length + r.path.length + 1 ≤ sizeofBuf := by
  have hmount : r.action ≠ .mount ∧ r.action ≠ .unmount := by
    unfold received at h
    split at h
    · split at h
      · rename_i hlt
        obtain ⟨root, -, h⟩ := Option.bind_eq_some_iff.mp h
        obtain ⟨action, haction, rfl⟩ := Option.map_eq_some_iff.mp h
        obtain rfl := actionOfCode_eq_some.mp haction
        cases action with
        | mount | unmount => exact absurd hlt (by decide)
        | _ => exact ⟨by simp, by simp⟩
      · cases h
    · cases h
  rw [handleMsg_of_received h] at hstep
  rcases r with ⟨action, cookie, root, path⟩
  have hsave : ∀ act : ℕ, act ≠ Action.renameFile.code → act ≠ Action.renameFolder.code →
      save { s with newMsg := false } act cookie root path .null = some s' →
        (s'.newMsg = true ↔ (root.getD []).length + path.length + 1 ≤ sizeofBuf) := by
    intro act hfile hfolder heq
    unfold save saveData at heq
    by_cases hsize : (root.getD []).length + path.length + 1 > sizeofBuf
    · simp only [hsize, if_true, Option.bind_eq_bind, Option.bind_some, Bool.false_eq_true, if_false, hfile,
        hfolder, or_self, Option.pure_def, Option.some.injEq] at heq
      rw [← heq]
      exact iff_of_false (by simp) (by omega)
    · simp only [hsize, if_false, Option.bind_eq_bind, Option.bind_some, if_true, hfile, hfolder, or_self,
        Option.pure_def, Option.some.injEq] at heq
      rw [← heq]
      exact iff_of_true rfl (by omega)
  cases action with
  | newFile | newLink | newSymlink | newFolder | delFile | delFolder =>
    rw [hsave _ (by simp [Action.code]) (by simp [Action.code]) hstep]
    simp
  | renameFile | renameFolder =>
    obtain rfl := Option.some.inj hstep
    simp
  | renameFromFile | renameFromFolder => cases hfrom
  | renameToFile | renameToFolder => cases hto
  | mount | unmount => simp at hmount

/-- `handleMsg` sets `new_msg` for the messages that are to be accepted. -/
theorem handleMsg_newMsg (hstep : s.handleMsg mountInfo msg = some s') : s'.newMsg = true ↔ s.accepts msg := by
  cases hreceived : s.received msg with
  | none =>
    obtain ⟨s₁, heq, hnew, -⟩ := handleMsg_of_not_received mountInfo hreceived
    obtain rfl := Option.some.inj (heq.symm.trans hstep)
    simp [accepts, hreceived, hnew]
  | some r =>
    simp only [accepts, hreceived, Option.some.injEq, exists_eq_left']
    by_cases hto : r.isTo = true
    · rw [handleMsg_of_to hreceived hto] at hstep
      obtain ⟨source, hsource, rfl⟩ := Option.map_eq_some_iff.mp hstep
      by_cases hfits : (r.root.getD []).length * 2 + source.length + r.path.length + 2 ≤ sizeofBuf
      · simp [hto, hsource, Received.Fits, hfits]
      · simp [hto, hsource, Received.Fits, hfits]
    rw [Bool.not_eq_true] at hto
    by_cases hfrom : r.isFrom = true
    · rw [handleMsg_of_from hreceived hfrom] at hstep
      obtain rfl := Option.some.inj hstep
      simp [hfrom, hto]
    · rw [Bool.not_eq_true] at hfrom
      simp [handleMsg_single_newMsg hreceived hfrom hto hstep, hfrom, hto]

/-! ## One receive -/

/-- None of the messages is accepted. -/
def RejectsAll (s : EventSource) : Delivery → Prop
  | [] => True
  | (mountInfo, msg) :: msgs =>
    ¬ s.accepts msg ∧ ∀ s', s.handleMsg mountInfo msg = some s' → RejectsAll s' msgs

/-- The last message may be accepted, the others are not; and if there is no message, the last one that has
been handled before was not. -/
def ReceiveOk (s : EventSource) (msgs : Delivery) : Prop :=
  (msgs = [] → s.newMsg = false) ∧ ∀ front last, msgs = front ++ [last] → s.RejectsAll front

theorem acceptedOf_cons_of_some {mountInfo : Option (List MountLine)} {msg : Option Attrs}
    (hstep : s.handleMsg mountInfo msg = some s') (msgs : Delivery) :
    s.acceptedOf ((mountInfo, msg) :: msgs) = (if s'.newMsg then [s'.saved] else []) ++ s'.acceptedOf msgs := by
  rw [acceptedOf, hstep]

/-- Messages without an accepted one. -/
theorem rejectsAll_iff {msgs : Delivery} {s' : EventSource} (h : s.recvmsgs msgs = some s') :
    s.RejectsAll msgs ↔ s.acceptedOf msgs = [] := by
  induction msgs generalizing s with
  | nil => simp [RejectsAll, acceptedOf]
  | cons m msgs ih =>
    obtain ⟨mountInfo, msg⟩ := m
    obtain ⟨s₁, hs₁, hrest⟩ := Option.bind_eq_some_iff.mp h
    rw [acceptedOf_cons_of_some hs₁, RejectsAll, ← handleMsg_newMsg hs₁, List.append_eq_nil_iff, ← ih hrest]
    simp only [hs₁, Option.some.injEq, forall_eq']
    refine and_congr_left fun _ => ?_
    cases s₁.newMsg <;> simp

/-- Behind a last message the flag and the buffer are those of that message. -/
theorem recvmsgs_snoc {front : Delivery} {mountInfo : Option (List MountLine)} {msg : Option Attrs}
    (h : s.recvmsgs (front ++ [(mountInfo, msg)]) = some s') :
    ∃ s₁, s.recvmsgs front = some s₁ ∧ s₁.handleMsg mountInfo msg = some s' ∧
      s.acceptedOf (front ++ [(mountInfo, msg)]) =
        s.acceptedOf front ++ if s'.newMsg then [s'.saved] else [] := by
  induction front generalizing s with
  | nil =>
    obtain ⟨s₁, hs₁, hrest⟩ := Option.bind_eq_some_iff.mp h
    obtain rfl : s₁ = s' := Option.some.inj hrest
    refine ⟨s, rfl, hs₁, ?_⟩
    rw [List.nil_append, acceptedOf_cons_of_some hs₁]
    simp [acceptedOf]
  | cons m front ih =>
    obtain ⟨mountInfo', msg'⟩ := m
    obtain ⟨s₁, hs₁, hrest⟩ := Option.bind_eq_some_iff.mp h
    obtain ⟨s₂, hs₂, hlast, heq⟩ := ih hrest
    refine ⟨s₂, ?_, hlast, ?_⟩
    · rw [recvmsgs, hs₁, Option.bind_some, hs₂]
    · rw [List.cons_append, acceptedOf_cons_of_some hs₁, acceptedOf_cons_of_some hs₁, heq, List.append_assoc]

/-- `getEvent` hands on just what is accepted in its receive if and only if the receive meets the condition. -/
theorem getEvent_iff {msgs : Delivery} {event : Option ServerEvent} (h : s.getEvent msgs = some (s', event)) :
    event.toList.map ServerEvent.actionPair = (s.acceptedOf msgs).map ServerEvent.actionPair ↔
      s.ReceiveOk msgs := by
  obtain ⟨s₁, hs₁, heq⟩ := Option.map_eq_some_iff.mp h
  obtain ⟨rfl, rfl⟩ := Prod.mk.inj heq
  rcases List.eq_nil_or_concat' msgs with rfl | ⟨front, ⟨mountInfo, msg⟩, rfl⟩
  · obtain rfl : s = s₁ := Option.some.inj hs₁
    cases hnew : s.newMsg <;> simp [ReceiveOk, acceptedOf, hnew]
  · obtain ⟨s₂, hs₂, -, hall⟩ := recvmsgs_snoc hs₁
    have hok : s.ReceiveOk (front ++ [(mountInfo, msg)]) ↔ s.acceptedOf front = [] := by
      rw [← rejectsAll_iff hs₂, ReceiveOk]
      constructor
      · exact fun h => h.2 front (mountInfo, msg) rfl
      · refine fun h => ⟨by simp, fun front' last heq => ?_⟩
        obtain ⟨rfl, -⟩ := List.append_inj' heq rfl
        exact h
    have hlast : (if s₁.newMsg then some s₁.saved else none).toList = if s₁.newMsg then [s₁.saved] else [] := by
      cases s₁.newMsg <;> rfl
    rw [hok, hall, hlast, List.map_append]
    -- what is handed on ends the list of what is accepted, so nothing may stand before it
    exact List.self_eq_append_left.trans List.map_eq_nil_iff

end EventSource

/-! ## Runs -/

namespace ServerRun

open EventSource

/-- The states that `Server::run` reaches with receives that meet a condition. -/
inductive Reachable (ok : EventSource → Delivery → Prop) : ServerRun → Prop
  | initial (mountInfo : Option (List MountLine)) : Reachable ok ⟨.initial mountInfo, [], []⟩
  | receive {s : ServerRun} {source : EventSource} {event : Option ServerEvent} {msgs : Delivery}
      (hs : Reachable ok s) (hok : ok s.source msgs) (hstep : s.source.getEvent msgs = some (source, event)) :
      Reachable ok ⟨source, s.accepted ++ s.source.acceptedOf msgs,
        s.pushed ++ event.toList.map ServerEvent.actionPair⟩

/-- As long as the receives meet the condition, every event that is accepted is pushed once and in order; and
the next receive keeps this up if and only if it meets the condition. -/
theorem reachable_forwards {s : ServerRun} (h : Reachable ReceiveOk s) :
    s.pushed = s.accepted.map ServerEvent.actionPair ∧
    ∀ msgs source event, s.source.getEvent msgs = some (source, event) →
      (s.pushed ++ event.toList.map ServerEvent.actionPair =
          (s.accepted ++ s.source.acceptedOf msgs).map ServerEvent.actionPair ↔ s.source.ReceiveOk msgs) := by
  have hpushed : s.pushed = s.accepted.map ServerEvent.actionPair := by
    induction h with
    | initial mountInfo => rfl
    | receive hs hok hstep ih =>
      simp only
      rw [ih, List.map_append, (getEvent_iff hstep).mpr hok]
  refine ⟨hpushed, fun msgs source event hstep => ?_⟩
  rw [hpushed, List.map_append, List.append_right_inj]
  exact getEvent_iff hstep

/-- The file `/a` is created on the sample device. -/
def sampleNew : Attrs := ⟨some 0, some 0, some 8, some 1, some [47, 97]⟩

/-- The halves of a rename come in one receive, and are pushed as one event. -/
theorem reachable_forwards_sample : ∃ source event,
    (EventSource.initial (some [Session.sampleMount])).getEvent
        [(none, some Session.sampleFrom), (none, some Session.sampleTo)] = some (source, some event) ∧
    event.actionPair = ([47, 97], [47, 98]) ∧
    Reachable ReceiveOk ⟨source, [event], [event.actionPair]⟩ ∧
    [event.actionPair] = [event].map ServerEvent.actionPair := by
  obtain ⟨source, hstep⟩ : ∃ source, (EventSource.initial (some [Session.sampleMount])).getEvent
      [(none, some Session.sampleFrom), (none, some Session.sampleTo)] =
        some (source, some ⟨Action.renameFile.code, [47, 97], some [47, 98]⟩) := ⟨_, rfl⟩
  have hinitial : Reachable ReceiveOk ⟨.initial (some [Session.sampleMount]), [], []⟩ := .initial _
  have hok := ((reachable_forwards hinitial).2 _ _ _ hstep).mp rfl
  have hreach : Reachable ReceiveOk ⟨source, [⟨Action.renameFile.code, [47, 97], some [47, 98]⟩],
      [([47, 97], [47, 98])]⟩ := .receive hinitial hok hstep
  exact ⟨source, _, hstep, rfl, hreach, (reachable_forwards hreach).1⟩

/-- The creation of `/a` is received, and then nothing: it is pushed twice. -/
theorem not_reachable_forwards : ∃ s : ServerRun, Reachable (fun _ _ => True) s ∧
    s.accepted = [⟨0, [47, 97], none⟩] ∧
    s.pushed = [(insertAction, [47, 97]), (insertAction, [47, 97])] ∧
    s.pushed ≠ s.accepted.map ServerEvent.actionPair := by
  have hinitial : Reachable (fun _ _ => True) ⟨.initial (some [Session.sampleMount]), [], []⟩ := .initial _
  obtain ⟨source, hfirst, hagain⟩ : ∃ source,
      (EventSource.initial (some [Session.sampleMount])).getEvent [(none, some sampleNew)] =
        some (source, some ⟨0, [47, 97], none⟩) ∧
      source.getEvent [] = some (source, some ⟨0, [47, 97], none⟩) := ⟨_, rfl, rfl⟩
  refine ⟨_, .receive (.receive hinitial trivial hfirst) trivial hagain, rfl, rfl, ?_⟩
  change [(insertAction, [47, 97]), (insertAction, [47, 97])] ≠ [(insertAction, [47, 97])]
  decide

end ServerRun

end DeepinAnything.Server
