import DeepinAnything.Lib.Before
import DeepinAnything.EventMerge.Timer

/-!
# The order in which events are delivered

The buffer is a queue, and a batch keeps its order. Two things can upset it: a batch is sent after the
lock has been dropped, so a later batch may overtake it; and a first half of a rename that waits for
its second half is left behind by the batch that takes what came after it.
-/

namespace DeepinAnything.EventMerge

open ByteMem ListOrder

/-! ## Related events -/

namespace VfsEvent

variable {e₁ e₂ e₁' e₂' : VfsEvent}

/-- Two events are about one path, or are the halves of one rename. -/
def Related (e₁ e₂ : VfsEvent) : Prop :=
  e₁.cmpEventPath e₂ = false ∨ e₁.cookie = e₂.cookie ∧ e₁.action.otherHalf = some e₂.action

instance (e₁ e₂ : VfsEvent) : Decidable (e₁.Related e₂) := inferInstanceAs (Decidable (_ ∨ _))

theorem otherHalf_symm {a b : Action} (h : a.otherHalf = some b) : b.otherHalf = some a := by
  cases a <;> simp [Action.otherHalf] at h <;> subst h <;> rfl

theorem Related.symm (h : e₁.Related e₂) : e₂.Related e₁ := by
  rcases h with hpath | ⟨hcookie, hother⟩
  · left
    simp only [cmpEventPath, Bool.or_eq_false_iff, decide_eq_false_iff_not, ne_eq, not_not] at hpath ⊢
    exact ⟨hpath.1.symm, hpath.2.symm⟩
  · exact .inr ⟨hcookie.symm, otherHalf_symm hother⟩

/-- An event does not become related to others. -/
theorem Related.of_descends (h : e₁'.Related e₂') (h₁ : e₁'.Descends e₁) (h₂ : e₂'.Descends e₂) :
    e₁.Related e₂ := by
  rcases h with hpath | ⟨hcookie, hother⟩
  · left
    rwa [cmpEventPath, h₁.dev_eq, h₂.dev_eq, h₁.path_eq, h₂.path_eq] at hpath
  · -- an event that has been rewritten is no half any more
    rcases h₁.cases with ⟨ha₁, hc₁⟩ | ⟨ha₁ | ha₁, -⟩
    · rcases h₂.cases with ⟨ha₂, hc₂⟩ | ⟨ha₂ | ha₂, -⟩
      · exact .inr ⟨by rw [← hc₁, ← hc₂, hcookie], by rw [← ha₁, hother, ha₂]⟩
      · rw [ha₂] at hother
        exact absurd (otherHalf_symm hother) (by simp [Action.otherHalf])
      · rw [ha₂] at hother
        exact absurd (otherHalf_symm hother) (by simp [Action.otherHalf])
    · simp [ha₁, Action.otherHalf] at hother
    · simp [ha₁, Action.otherHalf] at hother

end VfsEvent

/-! ## What a batch takes -/

namespace Merger

variable {s s' : Merger} {p : ℕ} {event : VfsEvent}

/-- The events among `ptrs` that can be handed out. -/
def deliverables (s : Merger) (ptrs : List ℕ) : List ℕ :=
  ptrs.filter fun p => (s.heap p).deliverable

theorem deliverables_cons_pos {next : List ℕ} (h : (s.heap p).deliverable = true) :
    s.deliverables (p :: next) = p :: s.deliverables next :=
  List.filter_cons_of_pos (p := fun p => (s.heap p).deliverable) h

theorem deliverables_cons_neg {next : List ℕ} (h : ¬ (s.heap p).deliverable = true) :
    s.deliverables (p :: next) = s.deliverables next :=
  List.filter_cons_of_neg (p := fun p => (s.heap p).deliverable) h

/-- The events that `pick_events` takes: the first ones that can be handed out. -/
def picks (s : Merger) : List ℕ :=
  if s.quit then s.events else (s.deliverables s.events).take dumpSize

theorem picks_sublist (s : Merger) : s.picks.Sublist s.events := by
  rw [picks]
  split
  · exact List.Sublist.refl _
  · exact (List.take_sublist _ _).trans List.filter_sublist

/-- The partner of a first half is no first half. -/
def PairsOk (s : Merger) : Prop :=
  ∀ p ∈ s.events, (s.heap p).action = .renameFromFile → ∀ q, (s.heap p).pair = some q →
    (s.heap q).action ≠ .renameFromFile

/-- Clearing the pair of a partner changes nothing about what can be handed out. -/
theorem heap_writePair_setPair (e : VfsEvent) (x : ℕ) :
    (s.writePair e (.setPair none)).heap x = s.heap x ∨
      e.pair = some x ∧ (s.writePair e (.setPair none)).heap x = (s.heap x).setPair none := by
  unfold writePair
  cases hpair : e.pair with
  | none => exact .inl rfl
  | some q =>
    by_cases hx : x = q
    · subst hx
      exact .inr ⟨rfl, heap_update_self _ _ _⟩
    · exact .inl (heap_update_of_ne _ hx _)

/-- One event is taken: pairs may be cleared, and what can be handed out stays the same. -/
theorem take_heap (hpairs : (s.heap p).action = .renameFromFile → ∀ q, (s.heap p).pair = some q →
      (s.heap q).action ≠ .renameFromFile) :
    ∃ s₁, (if (s.heap p).action = .renameFromFile then
        (s.moveEvent p).writePair (s.heap p) (.setPair none) else s.moveEvent p) = s₁ ∧
      s₁.events = s.events.erase p ∧
      (∀ x, s₁.heap x = s.heap x ∨ s₁.heap x = (s.heap x).setPair none) ∧
      ∀ x, (s₁.heap x).deliverable = (s.heap x).deliverable := by
  refine ⟨_, rfl, ?_⟩
  by_cases hact : (s.heap p).action = .renameFromFile
  · rw [if_pos hact]
    refine ⟨?_, fun x => ?_, fun x => ?_⟩
    · unfold writePair
      cases (s.heap p).pair <;> rfl
    · exact (heap_writePair_setPair (s.heap p) x).imp id And.right
    · rcases heap_writePair_setPair (s := s.moveEvent p) (s.heap p) x with heq | ⟨hpair, heq⟩
      · rw [heq]
        rfl
      · rw [heq]
        have hx := hpairs hact x hpair
        simp [VfsEvent.deliverable, moveEvent, hx]
  · rw [if_neg hact]
    exact ⟨rfl, fun x => .inl rfl, fun x => rfl⟩

/-- The loop takes the first events that can be handed out, up to its limit. -/
theorem pickLoop_eq {ptrs : List ℕ} (hnodup : s.events.Nodup) (hptrs : ptrs.Sublist s.events)
    (hpairs : ∀ p ∈ ptrs, (s.heap p).action = .renameFromFile → ∀ q, (s.heap p).pair = some q →
      (s.heap q).action ≠ .renameFromFile) {i : ℕ} (hi : i < dumpSize) (batch : List ℕ) :
    ∃ s', pickLoop ptrs i s batch = (s', batch ++
        (s.deliverables ptrs).take (dumpSize - i)) ∧
      s'.events = s.events.filter
        (· ∉ (s.deliverables ptrs).take (dumpSize - i)) ∧
      ∀ x, s'.heap x = s.heap x ∨ s'.heap x = (s.heap x).setPair none := by
  induction ptrs generalizing s i batch with
  | nil => exact ⟨s, by simp [pickLoop, deliverables], by simp [deliverables], fun x => .inl rfl⟩
  | cons p next ih =>
    rw [pickLoop]
    simp only
    by_cases hdeliver : (s.heap p).deliverable = true
    · rw [if_pos hdeliver, deliverables_cons_pos hdeliver]
      obtain ⟨s₁, heq, hevents₁, hheap₁, hsame⟩ := take_heap (hpairs p (by simp))
      rw [heq]
      have hptrs' : next.Sublist (s.events.erase p) := by
        have herase := hptrs.erase p
        rwa [List.erase_cons_head] at herase
      obtain ⟨k, hk⟩ : ∃ k, dumpSize - i = k + 1 := ⟨dumpSize - i - 1, by omega⟩
      rw [hk, List.take_succ_cons]
      have hfilter : s.events.erase p = s.events.filter (· ≠ p) := hnodup.erase_eq_filter p ▸ by
        congr 1
        funext x
        simp [bne, BEq.beq]
      by_cases hlast : i + 1 ≥ dumpSize
      · rw [if_pos hlast]
        obtain rfl : k = 0 := by omega
        refine ⟨s₁, by simp, ?_, hheap₁⟩
        rw [hevents₁, hfilter]
        simp
      · rw [if_neg hlast]
        have hpairs₁ : ∀ x ∈ next, (s₁.heap x).action = .renameFromFile →
            ∀ q, (s₁.heap x).pair = some q → (s₁.heap q).action ≠ .renameFromFile := by
          intro x hx hact q hpair
          have hq : (s₁.heap q).action = (s.heap q).action := by
            rcases hheap₁ q with h | h <;> rw [h]
            rfl
          rw [hq]
          rcases hheap₁ x with h | h
          · rw [h] at hact hpair
            exact hpairs x (List.mem_cons_of_mem _ hx) hact q hpair
          · rw [h] at hpair
            simp at hpair
        obtain ⟨s', heq', hevents', hheap'⟩ := ih (hevents₁ ▸ hnodup.erase p) (hevents₁ ▸ hptrs')
          hpairs₁ (show i + 1 < dumpSize by omega) (batch ++ [p])
        have hd : s₁.deliverables next = s.deliverables next :=
          List.filter_congr fun x _ => hsame x
        rw [hd, show dumpSize - (i + 1) = k by omega] at heq' hevents'
        refine ⟨s', by rw [heq', List.append_assoc]; rfl, ?_, fun x => ?_⟩
        · rw [hevents', hevents₁, hfilter, List.filter_filter]
          refine List.filter_congr fun x _ => ?_
          simp [not_or, Bool.and_comm]
        · rcases hheap' x with h | h <;> rcases hheap₁ x with h₁ | h₁ <;> rw [h, h₁]
          · exact .inl rfl
          · exact .inr rfl
          · exact .inr rfl
          · exact .inr rfl
    · rw [if_neg hdeliver, deliverables_cons_neg hdeliver]
      exact ih hnodup ((List.sublist_cons_self p next).trans hptrs)
        (fun x hx => hpairs x (List.mem_cons_of_mem _ hx)) hi batch

/-- What `pick_events` takes and leaves. -/
theorem pickEvents_eq (hnodup : s.events.Nodup) (hpairs : s.PairsOk) :
    s.pickEvents.2 = s.picks ∧ s.pickEvents.1.events = s.events.filter (· ∉ s.picks) ∧
      ∀ x, s.pickEvents.1.heap x = s.heap x ∨ s.pickEvents.1.heap x = (s.heap x).setPair none := by
  rw [pickEvents, picks]
  by_cases hquit : s.quit = true
  · rw [if_pos hquit, if_pos hquit]
    refine ⟨rfl, ?_, fun x => .inl rfl⟩
    exact (List.filter_eq_nil_iff.mpr fun x hx => by simpa using hx).symm
  · rw [if_neg hquit, if_neg hquit]
    obtain ⟨s', heq, hevents, hheap⟩ := pickLoop_eq hnodup (List.Sublist.refl _) hpairs
      (show 0 < dumpSize by decide) []
    rw [heq]
    exact ⟨rfl, hevents, hheap⟩

/-! ## First halves and their pairs -/

/-- A merge leaves the first halves alone, but for those that it turns into something else. -/
theorem Merged.heap_eq_of_from {cur : VfsEvent} (h : s.Merged cur p s') {x : ℕ}
    (hx : (s'.heap x).action = .renameFromFile) : s'.heap x = s.heap x := by
  have hwrite : ∀ (e : VfsEvent) (action : Action), action ≠ .renameFromFile →
      (((s.writePair e (.rewrite action)).removeEntry p).heap x).action = .renameFromFile →
      ((s.writePair e (.rewrite action)).removeEntry p).heap x = s.heap x := by
    intro e action hne hfrom
    change ((s.writePair e (.rewrite action)).heap x).action = _ at hfrom
    change (s.writePair e (.rewrite action)).heap x = _
    unfold writePair at hfrom ⊢
    cases hpair : e.pair with
    | none => rfl
    | some q =>
      rw [hpair] at hfrom
      by_cases hxq : x = q
      · subst hxq
        exact absurd ((congrArg VfsEvent.action (heap_update_self s x _)).symm.trans hfrom) hne
      · exact heap_update_of_ne _ hxq _
  cases h with
  | recreated | refilled | undone => rfl
  | refilledPaired => exact hwrite (s.heap p) .newFile (by decide) hx
  | undonePaired => exact hwrite (s.heap p) .delFile (by decide) hx
  | overwritten => exact hwrite cur .delFile (by decide) hx

/-- A buffered first half has the pair it had, or the event that has come in. -/
theorem absorb_from (hp : p ∉ s.events) {z q : ℕ}
    (hz : z ∈ ((s.receive p event).absorb p).events)
    (hfrom : (((s.receive p event).absorb p).heap z).action = .renameFromFile)
    (hpair : (((s.receive p event).absorb p).heap z).pair = some q) :
    z ∈ s.events ∧ (s.heap z).action = .renameFromFile ∧
      ((s.heap z).pair = some q ∨ q = p ∧ event.action = .renameToFile) := by
  have hsub : ((s.receive p event).absorb p).events ⊆ p :: s.events :=
    (absorb_frame s event hp).2.2.2.1
  have hsame : ((s.receive p event).absorb p).heap z = (s.receive p event).heap z := by
    rcases absorb_cases (s.receive p event) p with ⟨-, heq⟩ | ⟨s', x, -, -, hmerged, heq⟩
    · rw [heq]
    · rw [heq] at hfrom ⊢
      exact hmerged.heap_eq_of_from hfrom
  rw [hsame] at hfrom hpair
  rcases receive_cases s event hp with ⟨hto, w, hw, -, heq⟩ | ⟨e, heq, hnone, -⟩
  · rw [heq] at hfrom hpair
    by_cases hzp : z = p
    · rw [hzp, heap_update_self, VfsEvent.action_setPair] at hfrom
      exact absurd (hto.symm.trans hfrom) (by decide)
    rw [heap_update_of_ne _ hzp] at hfrom hpair
    have hz' := (List.mem_cons.mp (hsub hz)).resolve_left hzp
    by_cases hzw : z = w
    · rw [hzw, heap_update_self] at hfrom hpair
      refine ⟨hz', by rw [hzw]; exact hfrom, .inr ⟨?_, hto⟩⟩
      exact (Option.some.inj hpair).symm
    · rw [heap_update_of_ne _ hzw] at hfrom hpair
      exact ⟨hz', hfrom, .inl hpair⟩
  · rw [heq] at hfrom hpair
    by_cases hzp : z = p
    · rw [hzp, heap_update_self, hnone] at hpair
      simp at hpair
    rw [heap_update_of_ne _ hzp] at hfrom hpair
    exact ⟨(List.mem_cons.mp (hsub hz)).resolve_left hzp, hfrom, .inl hpair⟩

/-- The partners of buffered first halves have been passed and are no first halves. -/
def Paired (s : Merger) (passed : List ℕ) : Prop :=
  ∀ z ∈ s.events, (s.heap z).action = .renameFromFile → ∀ q, (s.heap z).pair = some q →
    q ∈ passed ∧ (s.heap q).action ≠ .renameFromFile

theorem Paired.pairsOk {passed : List ℕ} (h : s.Paired passed) : s.PairsOk :=
  fun z hz hfrom q hpair => (h z hz hfrom q hpair).2

theorem pickEvents_paired {passed : List ℕ} (hnodup : s.events.Nodup) (h : s.Paired passed) :
    s.pickEvents.1.Paired passed := by
  obtain ⟨-, hevents, hheap⟩ := pickEvents_eq hnodup h.pairsOk
  have hact : ∀ x, (s.pickEvents.1.heap x).action = (s.heap x).action := fun x => by
    rcases hheap x with heq | heq <;> rw [heq]
    rfl
  intro z hz hfrom q hpair
  rw [hevents] at hz
  rw [hact] at hfrom ⊢
  refine h z (List.mem_filter.mp hz).1 hfrom q ?_
  rcases hheap z with heq | heq
  · exact (congrArg VfsEvent.pair heq).symm.trans hpair
  · have hnone := (congrArg VfsEvent.pair heq).symm.trans hpair
    simp at hnone

theorem absorb_paired {passed : List ℕ} (hp : p ∉ s.events) (hfresh : p ∉ passed)
    (h : s.Paired passed) : ((s.receive p event).absorb p).Paired (passed ++ [p]) := by
  obtain ⟨-, -, -, -, hheap, hcur⟩ := absorb_frame s event hp
  intro z hz hfrom q hpair
  obtain ⟨hz', hfrom', hq⟩ := absorb_from hp hz hfrom hpair
  rcases hq with hq | ⟨rfl, hto⟩
  · obtain ⟨hqp, hne⟩ := h z hz' hfrom' q hq
    refine ⟨List.mem_append_left _ hqp, fun hact => ?_⟩
    rcases (hheap q (ne_of_mem_of_not_mem hqp hfresh)).cases with ⟨ha, -⟩ | ⟨ha | ha, -⟩
    · exact hne (ha.symm.trans hact)
    · exact absurd (ha.symm.trans hact) (by decide)
    · exact absurd (ha.symm.trans hact) (by decide)
  · refine ⟨List.mem_append_right _ (by simp), fun hact => ?_⟩
    rcases hcur.cases with ⟨ha, -⟩ | ⟨ha | ha, -⟩
    · exact absurd (hto.symm.trans (ha.symm.trans hact)) (by decide)
    · exact absurd (ha.symm.trans hact) (by decide)
    · exact absurd (ha.symm.trans hact) (by decide)

/-- The list gets longer by the event that has come in, or shorter. -/
theorem absorb_events (s : Merger) (event : VfsEvent) (hp : p ∉ s.events) :
    ((s.receive p event).absorb p).events = s.events ++ [p] ∨
      ((s.receive p event).absorb p).events.Sublist s.events := by
  have hevents := (receive_frame s event hp).1
  rcases absorb_cases (s.receive p event) p with ⟨-, heq⟩ | ⟨s', q, -, -, hmerged, heq⟩
  · left
    rw [heq]
    exact congrArg (· ++ [p]) hevents
  · right
    rw [heq]
    show s'.events.Sublist s.events
    rw [hmerged.frame.1, hevents]
    exact List.erase_sublist

end Merger

/-! ## The queue -/

namespace Monitor

variable {s s' : Monitor} {a : Act} {p : ℕ} {event : VfsEvent}

/-- What has been sent, what is being sent and what is in the buffer. -/
def line (s : Monitor) : List ℕ := s.sent.map Prod.fst ++ s.outgoing.flatten ++ s.merger.events

/-- The event at `x` is `e`: it has been sent as `e`, or it would be now. -/
def Shows (s : Monitor) (x : ℕ) (e : VfsEvent) : Prop :=
  (x, e) ∈ s.sent ∨ x ∈ s.outgoing.flatten ++ s.merger.events ∧ s.merger.heap x = e

/-- What `pick_events` takes is not related to an event that is being sent, nor to one that it leaves
behind although that came earlier. -/
def PickOk (s : Monitor) : Prop :=
  (∀ x ∈ s.outgoing.flatten, ∀ y ∈ s.merger.picks,
    ¬ (s.merger.heap x).Related (s.merger.heap y)) ∧
  ∀ x ∈ s.merger.events, x ∉ s.merger.picks → ∀ y ∈ s.merger.picks,
    Before s.merger.events x y → ¬ (s.merger.heap x).Related (s.merger.heap y)

instance (s : Monitor) : Decidable s.PickOk := inferInstanceAs (Decidable (_ ∧ _))

/-- The buffer that an event has come to, before `check_events`. -/
def received (s : Monitor) (p : ℕ) (event : VfsEvent) : Monitor :=
  { s with merger := (s.merger.receive p event).absorb p, passed := s.passed ++ [(p, event)] }

/-- Every batch is picked without harm to the order. -/
def OrderOk (s : Monitor) : Act → Prop
  | .pass p event => mergeBufferSize ≤ (s.received p event).merger.number → (s.received p event).PickOk
  | .expire => s.PickOk
  | _ => True

instance : ∀ (s : Monitor) (a : Act), Decidable (s.OrderOk a)
  | s, .pass p event => inferInstanceAs (Decidable
      (mergeBufferSize ≤ (s.received p event).merger.number → (s.received p event).PickOk))
  | s, .expire => inferInstanceAs (Decidable s.PickOk)
  | _, .send _ | _, .finish _ | _, .clearup => inferInstanceAs (Decidable True)

/-- The events are in line: related events are in the order in which they came, and batches that are
being sent at one time have nothing to do with each other. -/
structure Ordered (s : Monitor) : Prop where
  nodup : s.line.Nodup
  passed : s.line ⊆ s.passed.map Prod.fst
  paired : ∀ z ∈ s.merger.events, (s.merger.heap z).action = .renameFromFile →
    ∀ q, (s.merger.heap z).pair = some q →
      q ∈ s.passed.map Prod.fst ∧ (s.merger.heap q).action ≠ .renameFromFile
  order : ∀ x y e e', s.Shows x e → s.Shows y e' → e.Related e' →
    Before (s.passed.map Prod.fst) x y → Before s.line x y
  apart : s.outgoing.Pairwise fun b b' =>
    ∀ x ∈ b, ∀ y ∈ b', ¬ (s.merger.heap x).Related (s.merger.heap y)

theorem Shows.mem_line {x : ℕ} {e : VfsEvent} (h : s.Shows x e) : x ∈ s.line := by
  rcases h with h | ⟨h, -⟩
  · simp only [line, List.mem_append]
    exact .inl (.inl (List.mem_map_of_mem h))
  · simp only [line, List.mem_append] at h ⊢
    rcases h with h | h
    · exact .inl (.inr h)
    · exact .inr h

namespace Ordered

theorem initial (heap : ℕ → VfsEvent) : (initial heap).Ordered := by
  refine ⟨List.nodup_nil, List.nil_subset _, by simp [Monitor.initial], ?_, List.Pairwise.nil⟩
  intro x y e e' hx
  exact absurd hx.mem_line (by simp [line, Monitor.initial])

/-- The counter and the timer do not matter. -/
theorem congr (h : s.Ordered) (hheap : s'.merger.heap = s.merger.heap)
    (hevents : s'.merger.events = s.merger.events)
    (hflatten : s'.outgoing.flatten = s.outgoing.flatten) (hout : s'.outgoing.Sublist s.outgoing)
    (hsent : s'.sent = s.sent) (hpassed : s'.passed = s.passed) : s'.Ordered := by
  have hline : s'.line = s.line := by rw [line, line, hsent, hflatten, hevents]
  refine ⟨hline ▸ h.nodup, ?_, ?_, ?_, ?_⟩
  · rw [hline, hpassed]
    exact h.passed
  · rw [hevents, hheap, hpassed]
    exact h.paired
  · intro x y e e' hx hy
    rw [Shows, hsent, hflatten, hevents, hheap] at hx hy
    rw [hline, hpassed]
    exact h.order x y e e' hx hy
  · rw [hheap]
    exact h.apart.sublist hout

theorem not_mem_line (h : s.Ordered) (hp : p ∉ s.passed.map Prod.fst) : p ∉ s.line :=
  fun hmem => hp (h.passed hmem)

/-- An event comes in. -/
theorem received (h : s.Ordered) (event : VfsEvent) (hp : p ∉ s.passed.map Prod.fst) :
    (s.received p event).Ordered := by
  have hpline := h.not_mem_line hp
  have hpe : p ∉ s.merger.events := fun hmem => hpline (List.mem_append_right _ hmem)
  obtain ⟨-, -, -, hsub, hheap, hcur⟩ := Merger.absorb_frame s.merger event hpe
  have hpassed : (s.received p event).passed.map Prod.fst = s.passed.map Prod.fst ++ [p] := by
    simp [Monitor.received]
  have hline : (s.received p event).line = s.line ++ [p] ∨
      (s.received p event).line.Sublist s.line := by
    rcases Merger.absorb_events s.merger event hpe with heq | hshort
    · left
      show s.sent.map Prod.fst ++ s.outgoing.flatten ++ ((s.merger.receive p event).absorb p).events =
        s.sent.map Prod.fst ++ s.outgoing.flatten ++ s.merger.events ++ [p]
      rw [heq, ← List.append_assoc]
    · exact .inr ((List.Sublist.refl _).append hshort)
  -- what an event shows comes from what it showed before
  have hshows : ∀ x e, x ≠ p → (s.received p event).Shows x e →
      ∃ e₀, s.Shows x e₀ ∧ e.Descends e₀ := by
    rintro x e hx (hsent | ⟨hmem, rfl⟩)
    · exact ⟨e, .inl hsent, .refl _⟩
    · refine ⟨s.merger.heap x, .inr ⟨?_, rfl⟩, hheap x hx⟩
      rcases List.mem_append.mp hmem with hmem | hmem
      · exact List.mem_append_left _ hmem
      · exact List.mem_append_right _ ((List.mem_cons.mp (hsub hmem)).resolve_left hx)
  refine ⟨?_, ?_, ?_, fun x y e e' hx hy hrel hbefore => ?_, ?_⟩
  · rcases hline with heq | hshort
    · rw [heq]
      refine List.nodup_append.mpr ⟨h.nodup, by simp, ?_⟩
      rintro x hx y hy rfl
      exact hpline (List.mem_singleton.mp hy ▸ hx)
    · exact h.nodup.sublist hshort
  · rw [hpassed]
    rcases hline with heq | hshort
    · rw [heq]
      exact List.append_subset.mpr ⟨fun x hx => List.mem_append_left _ (h.passed hx), by simp⟩
    · exact fun x hx => List.mem_append_left _ (h.passed (hshort.subset hx))
  · rw [hpassed]
    exact Merger.absorb_paired hpe hp h.paired
  · rw [hpassed, before_append] at hbefore
    rcases hbefore with hbefore | ⟨hxp, hyp⟩ | hbefore
    · have hxp := ne_of_mem_of_not_mem hbefore.left_mem hp
      have hyp := ne_of_mem_of_not_mem hbefore.right_mem hp
      obtain ⟨e₀, hx₀, hd⟩ := hshows x e hxp hx
      obtain ⟨e₀', hy₀, hd'⟩ := hshows y e' hyp hy
      have hold := h.order x y e₀ e₀' hx₀ hy₀ (hrel.of_descends hd hd') hbefore
      rcases hline with heq | hshort
      · rw [heq]
        exact hold.mono (List.sublist_append_left _ _)
      · exact hold.restrict h.nodup hshort hx.mem_line hy.mem_line
    · obtain rfl := List.mem_singleton.mp hyp
      have hxy := ne_of_mem_of_not_mem hxp hp
      rcases hline with heq | hshort
      · obtain ⟨e₀, hx₀, -⟩ := hshows x e hxy hx
        rw [heq, before_append]
        exact .inr (.inl ⟨hx₀.mem_line, by simp⟩)
      · exact absurd (hshort.subset hy.mem_line) hpline
    · rw [before_cons] at hbefore
      rcases hbefore with ⟨-, hy'⟩ | hbefore
      · simp at hy'
      · exact absurd hbefore.left_mem (by simp)
  · refine h.apart.imp_of_mem fun {b b'} hb hb' hapart x hx y hy hrel => ?_
    have hmem : ∀ z, z ∈ s.outgoing.flatten → z ≠ p := fun z hz => by
      rintro rfl
      exact hpline (by simp [line, hz])
    exact hapart x hx y hy (hrel.of_descends (hheap x (hmem x (List.mem_flatten.mpr ⟨b, hb, hx⟩)))
      (hheap y (hmem y (List.mem_flatten.mpr ⟨b', hb', hy⟩))))

/-- A batch is picked. -/
theorem pick (h : s.Ordered) (hok : s.PickOk) : (s.leave s.merger.pickEvents).Ordered := by
  have hnodup : s.merger.events.Nodup := (List.nodup_append.mp h.nodup).2.1
  obtain ⟨hbatch, hevents, hheap⟩ := Merger.pickEvents_eq hnodup fun z hz hfrom q hpair =>
    (h.paired z hz hfrom q hpair).2
  have hpicks := s.merger.picks_sublist
  have hdescends : ∀ x, (s.merger.pickEvents.1.heap x).Descends (s.merger.heap x) := fun x => by
    rcases hheap x with heq | heq
    · rw [heq]
      exact .refl _
    · rw [heq]
      exact VfsEvent.descends_setPair _ _
  have hflatten : (s.leave s.merger.pickEvents).outgoing.flatten =
      s.outgoing.flatten ++ s.merger.picks := by rw [leave_outgoing, hbatch]
  have hleft : (s.leave s.merger.pickEvents).merger.events =
      s.merger.events.filter (· ∉ s.merger.picks) := hevents
  have hline : (s.leave s.merger.pickEvents).line = s.sent.map Prod.fst ++ s.outgoing.flatten ++
      (s.merger.picks ++ s.merger.events.filter (· ∉ s.merger.picks)) := by
    rw [line, hflatten, hleft, ← List.append_assoc, ← List.append_assoc]
    rfl
  have hperm : (s.leave s.merger.pickEvents).line.Perm s.line := by
    rw [hline]
    exact List.Perm.append_left _ (Merger.perm_split hnodup hpicks)
  have hshows : ∀ x e, (s.leave s.merger.pickEvents).Shows x e →
      ∃ e₀, s.Shows x e₀ ∧ e.Descends e₀ := by
    rintro x e (hsent | ⟨hmem, rfl⟩)
    · exact ⟨e, .inl hsent, .refl _⟩
    · refine ⟨s.merger.heap x, .inr ⟨?_, rfl⟩, hdescends x⟩
      rw [hflatten, hleft] at hmem
      simp only [List.mem_append] at hmem ⊢
      rcases hmem with (hmem | hmem) | hmem
      · exact .inl hmem
      · exact .inr (hpicks.subset hmem)
      · exact .inr (List.mem_filter.mp hmem).1
  refine ⟨hperm.nodup_iff.mpr h.nodup, fun x hx => h.passed (hperm.subset hx), ?_, ?_, ?_⟩
  · exact Merger.pickEvents_paired hnodup h.paired
  · intro x y e e' hx hy hrel hbefore
    obtain ⟨e₀, hx₀, hd⟩ := hshows x e hx
    obtain ⟨e₀', hy₀, hd'⟩ := hshows y e' hy
    have hrel₀ := hrel.of_descends hd hd'
    have hold := h.order x y e₀ e₀' hx₀ hy₀ hrel₀ hbefore
    have hxl := hx.mem_line
    have hyl := hy.mem_line
    rw [hline] at hxl hyl ⊢
    rw [line, before_append] at hold
    rw [before_append]
    rcases hold with hold | ⟨hxs, hye⟩ | hold
    · exact .inl hold
    · refine .inr (.inl ⟨hxs, ?_⟩)
      by_cases hyp : y ∈ s.merger.picks
      · exact List.mem_append_left _ hyp
      · exact List.mem_append_right _ (List.mem_filter.mpr ⟨hye, by simpa using hyp⟩)
    · -- both were in the buffer
      refine .inr (.inr ?_)
      have hcontent : ∀ {z e₁}, z ∈ s.merger.events → s.Shows z e₁ → s.merger.heap z = e₁ := by
        rintro z e₁ hz (hsent | ⟨-, heq⟩)
        · refine absurd hz ?_
          have hdisjoint := (List.nodup_append.mp h.nodup).2.2
          exact fun hz => hdisjoint z (List.mem_append_left _ (List.mem_map_of_mem hsent)) z hz rfl
        · exact heq
      rw [before_append]
      by_cases hxp : x ∈ s.merger.picks
      · by_cases hyp : y ∈ s.merger.picks
        · exact .inl (hold.restrict hnodup hpicks hxp hyp)
        · exact .inr (.inl ⟨hxp, List.mem_filter.mpr ⟨hold.right_mem, by simpa using hyp⟩⟩)
      · by_cases hyp : y ∈ s.merger.picks
        · refine absurd ?_ (hok.2 x hold.left_mem hxp y hyp hold)
          rw [hcontent hold.left_mem hx₀, hcontent hold.right_mem hy₀]
          exact hrel₀
        · refine .inr (.inr (hold.restrict hnodup List.filter_sublist ?_ ?_))
          · exact List.mem_filter.mpr ⟨hold.left_mem, by simpa using hxp⟩
          · exact List.mem_filter.mpr ⟨hold.right_mem, by simpa using hyp⟩
  · have hapart : s.outgoing.Pairwise fun b b' => ∀ x ∈ b, ∀ y ∈ b',
        ¬ (s.merger.pickEvents.1.heap x).Related (s.merger.pickEvents.1.heap y) :=
      h.apart.imp fun hb x hx y hy hrel =>
        hb x hx y hy (hrel.of_descends (hdescends x) (hdescends y))
    show (if s.merger.pickEvents.2 = [] then s.outgoing
      else s.outgoing ++ [s.merger.pickEvents.2]).Pairwise _
    split
    · exact hapart
    · refine List.pairwise_append.mpr ⟨hapart, List.pairwise_singleton _ _, ?_⟩
      rintro b hb b' hb' x hx y hy hrel
      rw [List.mem_singleton.mp hb', hbatch] at hy
      exact hok.1 x (List.mem_flatten.mpr ⟨b, hb, hx⟩) y hy
        (hrel.of_descends (hdescends x) (hdescends y))

/-- An event of a batch is sent. -/
theorem send (h : s.Ordered) {i : ℕ} {batch : List ℕ} (hout : s.outgoing[i]? = some (p :: batch)) :
    ({ s with
      merger := { s.merger with freed := p :: s.merger.freed }
      outgoing := s.outgoing.set i batch
      sent := s.sent ++ [(p, s.merger.heap p)] } : Monitor).Ordered := by
  obtain ⟨front, back, hsplit, hset, -⟩ := outgoing_split hout
  have hold : s.line = s.sent.map Prod.fst ++ front.flatten ++ p :: (batch ++ back.flatten ++
      s.merger.events) := by
    simp [line, hsplit]
  generalize hs' : ({ s with
    merger := { s.merger with freed := p :: s.merger.freed }
    outgoing := s.outgoing.set i batch
    sent := s.sent ++ [(p, s.merger.heap p)] } : Monitor) = s'
  have hnew : s'.line = s.sent.map Prod.fst ++ p :: (front.flatten ++ (batch ++ back.flatten ++
      s.merger.events)) := by
    simp [← hs', line, hset]
  have hperm : s'.line.Perm s.line := by
    rw [hnew, hold, List.append_assoc (s.sent.map Prod.fst)]
    exact List.Perm.append_left _ List.perm_middle.symm
  have hshows : ∀ x e, s'.Shows x e → s.Shows x e := by
    subst hs'
    rintro x e (hsent | ⟨hmem, rfl⟩)
    · rcases List.mem_append.mp hsent with hsent | hsent
      · exact .inl hsent
      · obtain ⟨rfl, rfl⟩ := Prod.mk.inj (List.mem_singleton.mp hsent)
        exact .inr ⟨by simp [hsplit], rfl⟩
    · refine .inr ⟨?_, rfl⟩
      simp only [hset] at hmem
      simp only [hsplit, List.flatten_append, List.flatten_cons, List.mem_append,
        List.mem_cons] at hmem ⊢
      tauto
  have happart := h.apart
  rw [hsplit, List.pairwise_append, List.pairwise_cons] at happart
  obtain ⟨hfront, ⟨hhead, hback⟩, hacross⟩ := happart
  have hnodup := h.nodup
  rw [hold] at hnodup
  refine ⟨hperm.nodup_iff.mpr h.nodup, ?_, by subst hs'; exact h.paired, ?_, ?_⟩
  · intro x hx
    have := h.passed (hperm.subset hx)
    subst hs'
    exact this
  · intro x y e e' hx hy hrel hbefore
    have hx₀ := hshows x e hx
    have hy₀ := hshows y e' hy
    have hxy := h.order x y e e' hx₀ hy₀ hrel (by subst hs'; exact hbefore)
    rw [hold, before_append, before_append, before_cons] at hxy
    rw [hnew, before_append, before_cons, before_append]
    have hp : ∀ e₁, s.Shows p e₁ → s.merger.heap p = e₁ := by
      rintro e₁ (hsent | ⟨-, heq⟩)
      · refine absurd rfl ((List.nodup_append.mp hnodup).2.2 p ?_ p (by simp))
        exact List.mem_append_left _ (List.mem_map_of_mem hsent)
      · exact heq
    have hfrontp : ∀ z e₁, z ∈ front.flatten → s.Shows z e₁ → s.merger.heap z = e₁ := by
      rintro z e₁ hz (hsent | ⟨-, heq⟩)
      · refine absurd rfl ((List.nodup_append.mp (List.nodup_append.mp hnodup).1).2.2 z ?_ z hz)
        exact List.mem_map_of_mem hsent
      · exact heq
    rcases hxy with (h₁ | ⟨hxs, hyf⟩ | h₁) | ⟨hxl, hyr⟩ | ⟨rfl, hyr⟩ | h₁
    · exact .inl h₁
    · exact .inr (.inl ⟨hxs, by simp [hyf]⟩)
    · exact .inr (.inr (.inr (.inl h₁)))
    · rcases List.mem_append.mp hxl with hxs | hxf
      · exact .inr (.inl ⟨hxs, by
          rcases List.mem_cons.mp hyr with rfl | hyr
          · simp
          · exact List.mem_cons_of_mem _ (List.mem_append_right _ hyr)⟩)
      · rcases List.mem_cons.mp hyr with rfl | hyr
        · -- the event overtakes the batches before its own
          obtain ⟨b, hb, hxb⟩ := List.mem_flatten.mp hxf
          refine absurd ?_ (hacross b hb (y :: batch) (by simp) x hxb y (by simp))
          rw [hp e' hy₀, hfrontp x e hxf hx₀]
          exact hrel
        · exact .inr (.inr (.inr (.inr (.inl ⟨hxf, hyr⟩))))
    · exact .inr (.inr (.inl ⟨rfl, List.mem_append_right _ hyr⟩))
    · exact .inr (.inr (.inr (.inr (.inr h₁))))
  · subst hs'
    rw [hset, List.pairwise_append, List.pairwise_cons]
    refine ⟨hfront, ⟨fun b hb x hx => hhead b hb x (List.mem_cons_of_mem _ hx), hback⟩, ?_⟩
    intro b hb b' hb' x hx y hy
    rcases List.mem_cons.mp hb' with rfl | hb'
    · exact hacross b hb (p :: b') (by simp) x hx y (List.mem_cons_of_mem _ hy)
    · exact hacross b hb b' (List.mem_cons_of_mem _ hb') x hx y hy

/-- One step keeps the events in line. -/
theorem step (h : s.Ordered) (hok : s.OrderOk a) (hstep : s.step a = some s') : s'.Ordered := by
  cases a with
  | pass p event =>
    rw [Monitor.step] at hstep
    split at hstep
    · simp at hstep
    rename_i hp
    obtain rfl := Option.some.inj hstep
    have hr := h.received event hp
    show ((s.received p event).leave (s.received p event).merger.checkEvents).Ordered
    have hnone : ∀ m : Merger, m.heap = (s.received p event).merger.heap →
        m.events = (s.received p event).merger.events →
        ((s.received p event).leave (m, [])).Ordered := fun m hheap hevents =>
      hr.congr hheap hevents rfl (List.Sublist.refl _) rfl rfl
    rcases Merger.checkEvents_cases (s.received p event).merger with
      ⟨-, heq⟩ | ⟨-, heq⟩ | ⟨-, -, hfull, heq⟩ | ⟨-, -, -, heq⟩
    · rw [heq]
      exact hnone _ rfl rfl
    · rw [heq]
      exact hnone _ rfl rfl
    · rw [heq]
      exact hr.pick (hok hfull)
    · rw [heq]
      exact hnone _ rfl rfl
  | expire =>
    rw [Monitor.step] at hstep
    split at hstep
    · obtain rfl := Option.some.inj hstep
      have hstop : ({ s with merger := { s.merger with pending := false } } : Monitor).Ordered :=
        h.congr rfl rfl rfl (List.Sublist.refl _) rfl rfl
      exact hstop.pick hok
    · simp at hstep
  | send i =>
    rw [Monitor.step] at hstep
    split at hstep
    · rename_i p batch hout
      obtain rfl := Option.some.inj hstep
      exact h.send hout
    · simp at hstep
  | finish i =>
    rw [Monitor.step] at hstep
    split at hstep
    · rename_i hout
      obtain ⟨front, back, hsplit, -, herase⟩ := outgoing_split hout
      obtain rfl := Option.some.inj hstep
      refine h.congr s.merger.heap_rearm s.merger.events_rearm ?_ (List.eraseIdx_sublist _ _) rfl rfl
      show (s.outgoing.eraseIdx i).flatten = s.outgoing.flatten
      rw [herase, hsplit]
      simp
    · simp at hstep
  | clearup =>
    rw [Monitor.step] at hstep
    split at hstep
    · obtain rfl := Option.some.inj hstep
      exact h.congr rfl rfl rfl (List.Sublist.refl _) rfl rfl
    · simp at hstep

end Ordered

theorem Reachable.ordered (h : Reachable OrderOk s) : s.Ordered := by
  induction h with
  | initial heap => exact .initial heap
  | step _ hok hstep ih => exact ih.step hok hstep

/-- In a run in which every batch is picked without harm to the order, related events are delivered in
the order in which they came. -/
theorem reachable_in_order (h : Reachable OrderOk s) {x y : ℕ} {e e' : VfsEvent}
    (hx : (x, e) ∈ s.sent) (hy : (y, e') ∈ s.sent) (hrel : e.Related e')
    (hbefore : Before (s.passed.map Prod.fst) x y) : Before (s.sent.map Prod.fst) x y := by
  have hordered := h.ordered
  refine (hordered.order x y e e' (.inl hx) (.inl hy) hrel hbefore).restrict hordered.nodup ?_
    (List.mem_map_of_mem hx) (List.mem_map_of_mem hy)
  rw [line, List.append_assoc]
  exact List.sublist_append_left _ _

theorem reachable_in_order_sample :
    ∃ s, runs OrderOk (initial fun _ => fileEvent .newFile 0 [])
        (sampleRename ++ [.expire, .send 0, .send 0]) = some s ∧
      (0, (fileEvent .renameFromFile 7 [47, 97]).setPair (some 1)) ∈ s.sent ∧
      Before (s.sent.map Prod.fst) 0 1 := by
  obtain ⟨s, hs⟩ : ∃ s, runs OrderOk (initial fun _ => fileEvent .newFile 0 [])
      (sampleRename ++ [.expire, .send 0, .send 0]) = some s := ⟨_, rfl⟩
  obtain rfl := Option.some.inj hs
  have hfrom : (0, (fileEvent .renameFromFile 7 [47, 97]).setPair (some 1)) ∈
      [(0, (fileEvent .renameFromFile 7 [47, 97]).setPair (some 1)),
        (1, fileEvent .renameToFile 7 [47, 98])] := by decide
  have hto : (1, fileEvent .renameToFile 7 [47, 98]) ∈
      [(0, (fileEvent .renameFromFile 7 [47, 97]).setPair (some 1)),
        (1, fileEvent .renameToFile 7 [47, 98])] := by decide
  exact ⟨_, hs, hfrom,
    reachable_in_order (.runs (.initial _) hs) hfrom hto (by decide) (by decide)⟩

/-- A first half that waits is overtaken by a folder with its name. -/
theorem reachable_not_in_order : ∃ s, Reachable CookieOk s ∧ ∃ x y e e', (x, e) ∈ s.sent ∧
    (y, e') ∈ s.sent ∧ e.Related e' ∧ Before (s.passed.map Prod.fst) x y ∧
    ¬ Before (s.sent.map Prod.fst) x y := by
  obtain ⟨s, hs⟩ : ∃ s, runs CookieOk (initial fun _ => fileEvent .newFile 0 [])
      [.pass 0 (fileEvent .renameFromFile 7 [47, 97]), .pass 1 (fileEvent .newFolder 0 [47, 97]),
        .expire, .pass 2 (fileEvent .renameToFile 7 [47, 98]), .send 0, .finish 0, .expire,
        .send 0, .send 0] = some s := ⟨_, rfl⟩
  refine ⟨s, .runs (.initial _) hs, ?_⟩
  obtain rfl := Option.some.inj hs
  exact ⟨0, 1, (fileEvent .renameFromFile 7 [47, 97]).setPair (some 2),
    fileEvent .newFolder 0 [47, 97], by decide, by decide, by decide, by decide, by decide⟩

end Monitor

end DeepinAnything.EventMerge
