import DeepinAnything.EventMerge.Order

/-!
# Room for what is handed out

The array that `pick_events` fills has room for `MERGE_BUFFER_SIZE` events and a null. An ordinary pick takes
ten events; after `clearup_event_merge` it takes all there are. The buffer is picked from as soon as it is
full, so it can only grow further while nothing in it can be handed out: first halves of renames whose
second half does not come stay, however many there are.
-/

namespace DeepinAnything.EventMerge

open ByteMem

/-! ## The length of the list -/

namespace Merger

variable {s s' : Merger} {p : ℕ} {event : VfsEvent}

/-- The list is not full, or there is nothing in it but first halves that wait. -/
def Bounded (s : Merger) : Prop := s.events.length < mergeBufferSize ∨ s.Waiting

theorem deliverables_of_waiting (h : s.Waiting) : s.deliverables s.events = [] :=
  List.filter_eq_nil_iff.mpr fun p hp => by
    obtain ⟨hact, hpair⟩ := h p hp
    simp [VfsEvent.deliverable, hact, hpair]

/-- First halves that wait are left alone. -/
theorem pickLoop_of_waiting {ptrs : List ℕ} (h : ∀ p ∈ ptrs, (s.heap p).action = .renameFromFile ∧
    (s.heap p).pair = none) (i : ℕ) (batch : List ℕ) : pickLoop ptrs i s batch = (s, batch) := by
  induction ptrs with
  | nil => rfl
  | cons p next ih =>
    obtain ⟨hact, hpair⟩ := h p (by simp)
    have hdeliver : (s.heap p).deliverable = false := by simp [VfsEvent.deliverable, hact, hpair]
    rw [pickLoop]
    simp only [hdeliver, Bool.false_eq_true, if_false]
    exact ih fun q hq => h q (List.mem_cons_of_mem _ hq)

theorem pickEvents_of_waiting (h : s.Waiting) (hquit : s.quit = false) : s.pickEvents = (s, []) := by
  rw [pickEvents, if_neg (by simp [hquit])]
  exact pickLoop_of_waiting h 0 []

/-- What is not picked because it cannot be handed out goes on waiting. -/
theorem waiting_of_picks (hnodup : s.events.Nodup) (hpairs : s.PairsOk) (hquit : s.quit = false)
    (hall : (s.deliverables s.events).length ≤ dumpSize) : s.pickEvents.1.Waiting := by
  obtain ⟨-, hevents, hheap⟩ := pickEvents_eq hnodup hpairs
  have hpicks : s.picks = s.deliverables s.events := by
    rw [picks, if_neg (by simp [hquit]), List.take_of_length_le hall]
  intro x hx
  rw [hevents, hpicks, List.mem_filter] at hx
  have hnot : (s.heap x).deliverable = false := by
    by_contra hd
    rw [Bool.not_eq_false] at hd
    exact of_decide_eq_true hx.2 (List.mem_filter.mpr ⟨hx.1, hd⟩)
  obtain ⟨hact, hpair⟩ : (s.heap x).action = .renameFromFile ∧ (s.heap x).pair = none := by
    simpa [VfsEvent.deliverable] using hnot
  rcases hheap x with heq | heq <;> rw [heq]
  · exact ⟨hact, hpair⟩
  · exact ⟨hact, rfl⟩

/-- A pick that is not empty makes the list shorter. -/
theorem pickEvents_length (hnodup : s.events.Nodup) (hpairs : s.PairsOk) :
    s.pickEvents.2.length + s.pickEvents.1.events.length = s.events.length := by
  obtain ⟨hbatch, hevents, -⟩ := pickEvents_eq hnodup hpairs
  rw [hbatch, hevents, ← List.length_append]
  exact (perm_split hnodup s.picks_sublist).length_eq

theorem pickEvents_length_le (hnodup : s.events.Nodup) (hpairs : s.PairsOk) (hquit : s.quit = false) :
    s.pickEvents.2.length ≤ dumpSize := by
  rw [(pickEvents_eq hnodup hpairs).1, picks, if_neg (by simp [hquit])]
  exact List.length_take_le _ _

namespace Waiting

/-- A first half is put behind the others. -/
theorem absorb_from (h : s.Waiting) (hp : p ∉ s.events) (hfrom : event.action = .renameFromFile) :
    ((s.receive p event).absorb p).events = s.events ++ [p] := by
  have hreceive : s.receive p event = s.update p fun _ => event.setPair none := by
    rcases receive_cases s event hp with ⟨hto, -⟩ | ⟨e, heq, -, ⟨-, rfl⟩ | ⟨hto, -⟩⟩
    · exact absurd (hfrom.symm.trans hto) (by decide)
    · exact heq
    · exact absurd (hfrom.symm.trans hto) (by decide)
  rw [hreceive]
  rcases absorb_cases (s.update p fun _ => event.setPair none) p with ⟨-, heq⟩ | ⟨s', q, hq, -, hm, -⟩
  · rw [heq]
    rfl
  · rw [heap_update_self] at hm
    have hq' : ((s.update p fun _ => event.setPair none).heap q).action = .renameFromFile := by
      rw [heap_update_of_ne _ (ne_of_mem_of_not_mem hq hp)]
      exact (h q hq).1
    cases hm with
    | recreated hnew | refilled hnew | refilledPaired hnew =>
      exact absurd hnew (by rw [VfsEvent.action_setPair, hfrom]; decide)
    | undone _ hact => exact absurd hact (by rw [hq']; decide)
    | undonePaired _ hact => exact absurd (hq'.symm.trans hact) (by decide)
    | overwritten hto => exact absurd (hfrom.symm.trans hto) (by decide)

/-- An event that cancels a first half leaves one less. -/
theorem absorb_cancels (h : s.Waiting) (hp : p ∉ s.events) (hevent : s.Undelivered event)
    (hfrom : event.action ≠ .renameFromFile) :
    ((s.receive p event).absorb p).events.length + 1 = s.events.length := by
  have hw := h.absorb hp hevent
  obtain ⟨hevents, -, -, -, -, -, hcur⟩ := receive_frame s event hp
  rcases absorb_cases (s.receive p event) p with ⟨-, heq⟩ | ⟨s', q, hq, -, hm, heq⟩
  · -- what stays would be a first half
    exfalso
    have hact := (hw p (by rw [heq]; simp)).1
    rw [heq] at hact
    rcases hcur.cases with ⟨hsame, -⟩ | ⟨hnew | hdel, -⟩
    · exact hfrom (hsame.symm.trans hact)
    · exact absurd (hnew.symm.trans hact) (by decide)
    · exact absurd (hdel.symm.trans hact) (by decide)
  · rw [heq]
    show s'.events.length + 1 = _
    have hlen := List.length_erase_of_mem hq
    have hpos := List.length_pos_of_mem hq
    rw [hm.frame.1, hlen, hevents] at *
    omega

/-- Of the events that there are after another one has come in, two at most can be handed out: it
and its partner. -/
theorem deliverables_absorb (h : s.Waiting) (hnodup : s.events.Nodup) (hp : p ∉ s.events)
    (hevent : ¬ s.Undelivered event) :
    (((s.receive p event).absorb p).deliverables ((s.receive p event).absorb p).events).length ≤ 2 := by
  obtain ⟨hevents, -⟩ := h.absorb_hasDeliverable hp hevent
  generalize hr : (s.receive p event).absorb p = r at hevents ⊢
  have hnodup' : r.events.Nodup := by
    rw [hevents]
    exact List.nodup_append.mpr ⟨hnodup, by simp, by
      rintro x hx y hy rfl
      exact hp (List.mem_singleton.mp hy ▸ hx)⟩
  have hheap : r.heap = (s.receive p event).heap := by
    rcases absorb_cases (s.receive p event) p with ⟨-, heq⟩ | ⟨s', q, hq, -, hm, heq⟩
    · rw [← hr, heq]
    · have hlen := congrArg List.length hevents
      have hle := List.length_erase_le (a := q) (l := (s.receive p event).events)
      rw [← hr, heq, List.length_append, List.length_singleton] at hlen
      rw [← hm.frame.1, (receive_frame s event hp).1] at hle
      have hlen' : s'.events.length = s.events.length + 1 := hlen
      omega
  obtain ⟨q, hq⟩ : ∃ q, ∀ x ∈ s.events, x ≠ q → r.heap x = s.heap x := by
    rcases receive_cases s event hp with ⟨-, q, -, -, heq⟩ | ⟨e, heq, -⟩
    · refine ⟨q, fun x hx hxq => ?_⟩
      rw [hheap, heq, heap_update_of_ne _ (ne_of_mem_of_not_mem hx hp), heap_update_of_ne _ hxq]
    · refine ⟨p, fun x _ hxp => ?_⟩
      rw [hheap, heq, heap_update_of_ne _ hxp]
  suffices hsub : ∀ x ∈ r.deliverables r.events, x ∈ [q, p] from
    (List.subperm_of_subset (hnodup'.filter _) hsub).length_le
  intro x hx
  obtain ⟨hx, hd⟩ := List.mem_filter.mp hx
  rw [hevents, List.mem_append] at hx
  rcases hx with hx | hx
  · by_cases hxq : x = q
    · simp [hxq]
    · rw [hq x hx hxq] at hd
      simp [VfsEvent.deliverable, (h x hx).1, (h x hx).2] at hd
  · simpa using .inr (List.mem_singleton.mp hx)

end Waiting

/-- The first halves that wait for their second half. -/
def waiting (s : Merger) : List ℕ := s.events.filter fun p => !(s.heap p).deliverable

theorem waiting_length_le (s : Merger) : s.waiting.length ≤ s.events.length :=
  List.length_filter_le _ _

theorem Waiting.waiting_eq (h : s.Waiting) : s.waiting = s.events :=
  List.filter_eq_self.mpr fun p hp => by
    obtain ⟨hact, hpair⟩ := h p hp
    simp [VfsEvent.deliverable, hact, hpair]

/-! ## What a pick takes and leaves -/

/-- The array has room for a pick, unless all of a list that is too long is taken. -/
theorem pickEvents_fits (hnodup : s.events.Nodup) (hpairs : s.PairsOk) :
    s.pickEvents.2.length ≤ mergeBufferSize ↔ (s.quit = true → s.events.length ≤ mergeBufferSize) := by
  cases hquit : s.quit with
  | true =>
    rw [pickEvents, if_pos hquit]
    exact ⟨fun h _ => h, fun h => h rfl⟩
  | false =>
    have hle := pickEvents_length_le hnodup hpairs hquit
    exact iff_of_true (Nat.le_trans hle (by decide)) (by simp)

/-- A pick from a list that is at most full, or in which little can be handed out, leaves a list that
is not full, or nothing that can be handed out. -/
theorem pickEvents_bounded (hc : s.Counted) (hpairs : s.PairsOk)
    (h : s.events.length ≤ mergeBufferSize ∨ (s.deliverables s.events).length ≤ dumpSize) :
    s.pickEvents.1.Bounded := by
  cases hquit : s.quit with
  | true =>
    left
    rw [pickEvents, if_pos hquit]
    exact Nat.zero_lt_succ 99
  | false =>
    rcases h with hle | hfew
    · by_cases hnil : s.pickEvents.2 = []
      · exact .inr (waiting_of_not_hasDeliverable (hc.pickEvents.2.2 hnil).2)
      · left
        have hlen := pickEvents_length hc.nodup hpairs
        have hpos := List.length_pos_iff.mpr hnil
        omega
    · exact .inr (waiting_of_picks hc.nodup hpairs hquit hfew)

theorem checkEvents_fits (hc : s.Counted) (hpairs : s.PairsOk) :
    s.checkEvents.2.length ≤ mergeBufferSize ↔ (s.quit = true → s.events.length ≤ mergeBufferSize) := by
  have hnumber := hc.number_eq
  have hsize : mergeBufferSize = 100 := rfl
  rcases checkEvents_cases s with ⟨h0, heq⟩ | ⟨h1, heq⟩ | ⟨-, -, -, heq⟩ | ⟨-, -, hlt, heq⟩
  · rw [heq]
    exact iff_of_true (Nat.zero_le _) fun _ => by omega
  · rw [heq]
    exact iff_of_true (Nat.zero_le _) fun _ => by omega
  · rw [heq]
    exact pickEvents_fits hc.nodup hpairs
  · rw [heq]
    exact iff_of_true (Nat.zero_le _) fun _ => by omega

theorem checkEvents_bounded (hc : s.Counted) (hpairs : s.PairsOk)
    (h : s.events.length ≤ mergeBufferSize ∨ (s.deliverables s.events).length ≤ dumpSize) :
    s.checkEvents.1.Bounded := by
  have hnumber := hc.number_eq
  have hsize : mergeBufferSize = 100 := rfl
  rcases checkEvents_cases s with ⟨h0, heq⟩ | ⟨h1, heq⟩ | ⟨-, -, -, heq⟩ | ⟨-, -, hlt, heq⟩
  · rw [heq]
    exact .inl (by show s.events.length < _; omega)
  · rw [heq]
    exact .inl (by show s.events.length < _; omega)
  · rw [heq]
    exact pickEvents_bounded hc hpairs h
  · rw [heq]
    exact .inl (by show s.events.length < _; omega)

theorem checkEvents_paired {passed : List ℕ} (hnodup : s.events.Nodup) (h : s.Paired passed) :
    s.checkEvents.1.Paired passed := by
  rcases checkEvents_cases s with ⟨-, heq⟩ | ⟨-, heq⟩ | ⟨-, -, -, heq⟩ | ⟨-, -, -, heq⟩
  · rw [heq]
    exact h
  · rw [heq]
    exact h
  · rw [heq]
    exact pickEvents_paired hnodup h
  · rw [heq]
    exact h

/-- An event that comes in makes the list at most full, or adds little that can be handed out. -/
theorem Bounded.absorb (h : s.Bounded) (hnodup : s.events.Nodup) (hp : p ∉ s.events) :
    ((s.receive p event).absorb p).events.length ≤ mergeBufferSize ∨
      (((s.receive p event).absorb p).deliverables
        ((s.receive p event).absorb p).events).length ≤ dumpSize := by
  rcases h with hlt | hw
  · left
    rcases absorb_events s event hp with heq | hshort
    · rw [heq, List.length_append, List.length_singleton]
      omega
    · exact Nat.le_trans hshort.length_le (Nat.le_of_lt hlt)
  · right
    by_cases hevent : s.Undelivered event
    · rw [deliverables_of_waiting (hw.absorb hp hevent)]
      exact Nat.zero_le _
    · exact Nat.le_trans (hw.deliverables_absorb hnodup hp hevent) (by decide)

end Merger

/-! ## Runs -/

namespace Monitor

variable {s s' : Monitor} {a : Act}

/-- One step, where `clearup_event_merge` may set `quit` at any moment. -/
def stepAny (s : Monitor) : Act → Option Monitor
  | .clearup => some { s with merger := { s.merger with quit := true } }
  | a => s.step a

/-- The states that runs reach whose steps meet a condition. -/
inductive ReachableAny (ok : Monitor → Act → Prop) : Monitor → Prop
  | initial (heap : ℕ → VfsEvent) : ReachableAny ok (initial heap)
  | step {s s' : Monitor} {a : Act} (hs : ReachableAny ok s) (hok : ok s a)
      (hstep : s.stepAny a = some s') : ReachableAny ok s'

/-- What `pick_events` writes to the array `events_tosend` in a step. -/
def eventsTosend (s : Monitor) : Act → List ℕ
  | .pass p event => (s.merger.doEventMerge p event).2
  | .expire => s.merger.eventTimeoutNotifyCallback.2
  | _ => []

/-- Once `quit` is set, few enough first halves wait: less than the array has room for when an event
comes in, or one more than it has room for when the event cancels one of them; and not more than it has
room for when the timer expires. -/
def RoomOk (s : Monitor) : Act → Prop
  | .pass _ event => s.merger.quit = true → s.merger.waiting.length < mergeBufferSize ∨
      s.merger.waiting.length ≤ mergeBufferSize + 1 ∧ s.merger.Undelivered event ∧
        event.action ≠ .renameFromFile
  | .expire => s.merger.quit = true → s.merger.waiting.length ≤ mergeBufferSize
  | _ => True

/-- The counter is right, first halves have proper partners, and the list is not full or cannot be
handed out. -/
structure Roomy (s : Monitor) : Prop where
  counted : s.Counted
  paired : s.merger.Paired (s.passed.map Prod.fst)
  bounded : s.merger.Bounded

namespace Roomy

theorem initial (heap : ℕ → VfsEvent) : (initial heap).Roomy :=
  ⟨.initial heap, fun _ hz => absurd hz List.not_mem_nil, .inl (Nat.zero_lt_succ 99)⟩

/-- An event comes in. -/
theorem pass (h : s.Roomy) {p : ℕ} (event : VfsEvent) (hp : p ∉ s.passed.map Prod.fst) :
    (s.merger.doEventMerge p event).1.Counted ∧
      (s.merger.doEventMerge p event).1.Paired (s.passed.map Prod.fst ++ [p]) ∧
      (s.merger.doEventMerge p event).1.Bounded ∧
      ((s.merger.doEventMerge p event).2.length ≤ mergeBufferSize ↔ s.RoomOk (.pass p event)) := by
  have hpe := h.counted.not_mem hp
  obtain ⟨hc, -, hquit, -⟩ := h.counted.absorb event hp
  have hpaired : ((s.merger.receive p event).absorb p).Paired _ := Merger.absorb_paired hpe hp h.paired
  have hlist : ((s.merger.receive p event).absorb p).events.length ≤ _ ∨ _ :=
    h.bounded.absorb h.counted.merger.nodup hpe
  refine ⟨hc.checkEvents.1, Merger.checkEvents_paired hc.nodup hpaired,
    Merger.checkEvents_bounded hc hpaired.pairsOk hlist, ?_⟩
  show ((s.merger.receive p event).absorb p).checkEvents.2.length ≤ _ ↔ _
  rw [Merger.checkEvents_fits hc hpaired.pairsOk, hquit, RoomOk]
  refine imp_congr_right fun _ => ?_
  rcases h.bounded with hlt | hw
  · have hle := s.merger.waiting_length_le
    refine iff_of_true ?_ (.inl (by omega))
    rcases Merger.absorb_events s.merger event hpe with heq | hshort
    · rw [heq, List.length_append, List.length_singleton]
      omega
    · exact Nat.le_trans hshort.length_le (Nat.le_of_lt hlt)
  · rw [hw.waiting_eq]
    by_cases hfrom : event.action = .renameFromFile
    · rw [hw.absorb_from hpe hfrom, List.length_append, List.length_singleton]
      simp only [hfrom, ne_eq, not_true_eq_false, and_false, or_false]
      exact Nat.succ_le_iff
    by_cases hevent : s.merger.Undelivered event
    · have hlen := hw.absorb_cancels hpe hevent hfrom
      simp only [hevent, hfrom, ne_eq, not_false_eq_true, and_true]
      omega
    · rw [(hw.absorb_hasDeliverable hpe hevent).1, List.length_append, List.length_singleton]
      simp only [hevent, false_and, and_false, or_false]
      exact Nat.succ_le_iff

/-- One step keeps the list short enough, and writes as much to the array as it says. -/
theorem step (h : s.Roomy) (hstep : s.stepAny a = some s') :
    s'.Roomy ∧ ((s.eventsTosend a).length ≤ mergeBufferSize ↔ s.RoomOk a) := by
  cases a with
  | pass p event =>
    have hstep : s.step (.pass p event) = some s' := hstep
    rw [Monitor.step] at hstep
    split at hstep
    · simp at hstep
    rename_i hp
    obtain rfl := Option.some.inj hstep
    obtain ⟨hc, hpaired, hbounded, hfits⟩ := h.pass event hp
    obtain ⟨hc', -, -, hsub⟩ := h.counted.absorb event hp
    have hmap : (s.passed ++ [(p, event)]).map Prod.fst = s.passed.map Prod.fst ++ [p] := by simp
    refine ⟨⟨⟨hc, fun x hx => ?_⟩, hmap ▸ hpaired, hbounded⟩, hfits⟩
    show x ∈ (s.passed ++ [(p, event)]).map Prod.fst
    rw [hmap, List.mem_append]
    rcases List.mem_cons.mp (hsub (hc'.checkEvents.2.1 hx)) with rfl | hx
    · exact .inr (by simp)
    · exact .inl (h.counted.passed hx)
  | expire =>
    have hstep : s.step .expire = some s' := hstep
    rw [Monitor.step] at hstep
    split at hstep
    · obtain rfl := Option.some.inj hstep
      have hc : ({ s.merger with pending := false } : Merger).Counted := h.counted.merger.congr rfl rfl
      have hpaired : ({ s.merger with pending := false } : Merger).Paired (s.passed.map Prod.fst) :=
        h.paired
      obtain ⟨hc', hsub, -⟩ := hc.pickEvents
      refine ⟨⟨⟨hc', fun x hx => h.counted.passed (hsub hx)⟩,
        Merger.pickEvents_paired hc.nodup hpaired, ?_⟩, ?_⟩
      · refine Merger.pickEvents_bounded hc hpaired.pairsOk ?_
        rcases h.bounded with hlt | hw
        · exact .inl (Nat.le_of_lt hlt)
        · right
          rw [Merger.deliverables_of_waiting (s := { s.merger with pending := false }) hw]
          exact Nat.zero_le _
      · show ({ s.merger with pending := false } : Merger).pickEvents.2.length ≤ _ ↔ _
        rw [Merger.pickEvents_fits hc.nodup hpaired.pairsOk, RoomOk]
        refine imp_congr_right fun _ => ?_
        show s.merger.events.length ≤ _ ↔ _
        rcases h.bounded with hlt | hw
        · have hle := s.merger.waiting_length_le
          exact iff_of_true (Nat.le_of_lt hlt) (Nat.le_trans hle (Nat.le_of_lt hlt))
        · rw [hw.waiting_eq]
    · simp at hstep
  | send i =>
    have hstep : s.step (.send i) = some s' := hstep
    rw [Monitor.step] at hstep
    split at hstep
    · obtain rfl := Option.some.inj hstep
      exact ⟨⟨⟨h.counted.merger.congr rfl rfl, h.counted.passed⟩, h.paired, h.bounded⟩,
        iff_of_true (Nat.zero_le _) trivial⟩
    · simp at hstep
  | finish i =>
    have hstep : s.step (.finish i) = some s' := hstep
    rw [Monitor.step] at hstep
    split at hstep
    · obtain rfl := Option.some.inj hstep
      refine ⟨?_, iff_of_true (Nat.zero_le _) trivial⟩
      rw [Merger.rearm]
      split
      · exact ⟨⟨h.counted.merger.congr rfl rfl, h.counted.passed⟩, h.paired, h.bounded⟩
      · exact ⟨⟨h.counted.merger, h.counted.passed⟩, h.paired, h.bounded⟩
    · simp at hstep
  | clearup =>
    obtain rfl := Option.some.inj hstep
    exact ⟨⟨⟨h.counted.merger.congr rfl rfl, h.counted.passed⟩, h.paired, h.bounded⟩,
      iff_of_true (Nat.zero_le _) trivial⟩

end Roomy

theorem ReachableAny.roomy {ok : Monitor → Act → Prop} (h : ReachableAny ok s) : s.Roomy := by
  induction h with
  | initial heap => exact .initial heap
  | step _ _ hstep ih => exact (ih.step hstep).1

/-- In every run, a step writes no more to the array than it has room for, just if the list does not
hold too many first halves that wait once `quit` is set. -/
theorem reachableAny_fits {ok : Monitor → Act → Prop} (h : ReachableAny ok s)
    (hstep : s.stepAny a = some s') : (s.eventsTosend a).length ≤ mergeBufferSize ↔ s.RoomOk a :=
  (h.roomy.step hstep).2

theorem reachableAny_fits_sample : ∃ s s' : Monitor, s.stepAny .expire = some s' ∧ s.merger.quit = true ∧
    s.eventsTosend .expire = [0] ∧ (s.eventsTosend .expire).length ≤ mergeBufferSize := by
  have hinitial : ReachableAny (fun _ _ => True) (initial fun _ => fileEvent .newFile 0 []) :=
    .initial _
  obtain ⟨s₁, h₁⟩ : ∃ s₁, (initial fun _ => fileEvent .newFile 0 []).stepAny
      (.pass 0 (fileEvent .renameFromFile 7 [47, 97])) = some s₁ := ⟨_, rfl⟩
  obtain rfl := Option.some.inj h₁
  exact ⟨_, _, rfl, rfl, rfl, (reachableAny_fits (a := .expire)
    (.step (a := .clearup) (.step hinitial trivial h₁) trivial rfl) rfl).mpr fun _ => by decide⟩

/-- Any number of first halves can wait while the timer is set. -/
theorem exists_waiting (n : ℕ) : ∃ s, ReachableAny CookieOk s ∧ s.merger.Waiting ∧
    s.merger.events.length = n ∧ s.merger.quit = false ∧ (n ≠ 0 → s.merger.pending = true) ∧
    s.passed.map Prod.fst = List.range n ∧ ∀ e ∈ s.passed.map Prod.snd, e.cookie ≤ n := by
  induction n with
  | zero =>
    refine ⟨initial fun _ => fileEvent .newFile 0 [], .initial _, ?_, rfl, rfl, by simp, rfl, ?_⟩
    · exact fun _ hp => absurd hp List.not_mem_nil
    · exact fun _ he => absurd he List.not_mem_nil
  | succ n ih =>
    obtain ⟨s, hs, hw, hlen, hquit, hpending, hpassed, hcookie⟩ := ih
    have hfresh : n ∉ s.passed.map Prod.fst := by
      rw [hpassed]
      simp
    generalize hevent : fileEvent .renameFromFile (n + 1) [47] = event
    have hfrom : event.action = .renameFromFile := by rw [← hevent]; rfl
    have hok : s.CookieOk (.pass n event) := by
      refine ⟨fun _ => by rw [← hevent]; exact Nat.succ_ne_zero n, fun e he heq => ?_⟩
      have hle := hcookie e he
      rw [heq, ← hevent] at hle
      exact absurd hle (Nat.not_succ_le_self n)
    have hpe := hs.roomy.counted.not_mem hfresh
    have hw' : ((s.merger.receive n event).absorb n).Waiting := hw.absorb hpe (.inl hfrom)
    have hevents := hw.absorb_from hpe hfrom
    obtain ⟨hc, hpending', hquit', -⟩ := hs.roomy.counted.absorb event hfresh
    have hnumber := hc.number_eq
    rw [hevents, List.length_append, List.length_singleton, hlen] at hnumber
    have hcheck : ∃ pending, (n + 1 ≠ 0 → pending = true) ∧ s.merger.doEventMerge n event =
        ({ (s.merger.receive n event).absorb n with pending := pending }, []) := by
      rw [Merger.doEventMerge]
      rcases Merger.checkEvents_cases ((s.merger.receive n event).absorb n) with
        ⟨h0, -⟩ | ⟨-, heq⟩ | ⟨-, h1, -, heq⟩ | ⟨-, h1, -, heq⟩
      · omega
      · exact ⟨true, fun _ => rfl, heq⟩
      · refine ⟨_, fun _ => ?_, heq.trans (Merger.pickEvents_of_waiting hw' (hquit'.trans hquit))⟩
        exact hpending'.trans (hpending (by omega))
      · exact ⟨_, fun _ => hpending'.trans (hpending (by omega)), heq⟩
    obtain ⟨pending, hset, heq⟩ := hcheck
    refine ⟨_, .step hs hok (by
      show s.step (.pass n event) = _
      rw [Monitor.step, if_neg hfresh]), ?_, ?_, ?_, ?_, ?_, ?_⟩
    · show (s.merger.doEventMerge n event).1.Waiting
      rw [heq]
      exact hw'
    · show (s.merger.doEventMerge n event).1.events.length = _
      rw [heq]
      show ((s.merger.receive n event).absorb n).events.length = _
      rw [hevents, List.length_append, List.length_singleton, hlen]
    · show (s.merger.doEventMerge n event).1.quit = _
      rw [heq]
      exact hquit'.trans hquit
    · show _ → (s.merger.doEventMerge n event).1.pending = _
      rw [heq]
      exact hset
    · show (s.passed ++ [(n, event)]).map Prod.fst = _
      rw [List.map_append, hpassed, List.range_succ]
      rfl
    · intro e he
      change e ∈ (s.passed ++ [(n, event)]).map Prod.snd at he
      rw [List.map_append, List.mem_append] at he
      rcases he with he | he
      · exact Nat.le_succ_of_le (hcookie e he)
      · rw [List.mem_singleton.mp he, ← hevent]
        exact Nat.le_refl _

/-- A hundred and one first halves wait when the module is cleared up, and the array has no room left for
the null. -/
theorem reachableAny_not_fits : ∃ s s' : Monitor, ReachableAny CookieOk s ∧ s.stepAny .expire = some s' ∧
    (s.eventsTosend .expire).length = mergeBufferSize + 1 := by
  obtain ⟨s, hs, -, hlen, -, hpending, -⟩ := exists_waiting (mergeBufferSize + 1)
  exact ⟨{ s with merger := { s.merger with quit := true } }, _,
    .step (a := .clearup) hs trivial rfl, if_pos (hpending (Nat.succ_ne_zero _)), hlen⟩

end Monitor

end DeepinAnything.EventMerge
