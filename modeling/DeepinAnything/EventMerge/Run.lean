import DeepinAnything.EventMerge.Pick

/-!
# Runs of the event buffer

Threads pass events, the timer expires and batches are sent in any order. If the two halves of a
rename carry a cookie of their own, the buffer stays sound, and every event is in one place: in the
list, in a batch, or freed.
-/

namespace DeepinAnything.EventMerge

open ByteMem

/-! ## What happens to an event -/

namespace VfsEvent

/-- An event keeps its path. It keeps its action and cookie as well, or is turned into a new or a
deleted file without a cookie. -/
structure Descends (e' e : VfsEvent) : Prop where
  dev_eq : e'.dev = e.dev
  path_eq : e'.path = e.path
  cases : e'.action = e.action ∧ e'.cookie = e.cookie ∨
    (e'.action = .newFile ∨ e'.action = .delFile) ∧ e'.cookie = 0

variable {e e' e'' : VfsEvent}

theorem Descends.refl (e : VfsEvent) : e.Descends e := ⟨rfl, rfl, .inl ⟨rfl, rfl⟩⟩

theorem Descends.trans (h : e''.Descends e') (h' : e'.Descends e) : e''.Descends e := by
  refine ⟨h.dev_eq.trans h'.dev_eq, h.path_eq.trans h'.path_eq, ?_⟩
  rcases h.cases with ⟨ha, hc⟩ | hnew
  · rcases h'.cases with ⟨ha', hc'⟩ | ⟨ha', hc'⟩
    · exact .inl ⟨ha.trans ha', hc.trans hc'⟩
    · exact .inr ⟨by rwa [ha], hc.trans hc'⟩
  · exact .inr hnew

theorem descends_setPair (pair : Option ℕ) (e : VfsEvent) : (e.setPair pair).Descends e :=
  ⟨rfl, rfl, .inl ⟨rfl, rfl⟩⟩

theorem descends_rewrite {action : Action} (ha : action = .newFile ∨ action = .delFile)
    (e : VfsEvent) : (e.rewrite action).Descends e := ⟨rfl, rfl, .inr ⟨ha, rfl⟩⟩

/-- Two events that differ in their pairs descend from each other. -/
theorem Descends.of_setPair (h : e'.setPair none = e.setPair none) : e'.Descends e := by
  refine ⟨?_, ?_, .inl ⟨Merger.action_eq_of_setPair h, ?_⟩⟩
  · exact (congrArg VfsEvent.dev h : (e'.setPair none).dev = (e.setPair none).dev)
  · exact (congrArg VfsEvent.path h : (e'.setPair none).path = (e.setPair none).path)
  · exact (congrArg VfsEvent.cookie h : (e'.setPair none).cookie = (e.setPair none).cookie)

end VfsEvent

namespace Merger

variable {s s' : Merger} {p : ℕ} {event : VfsEvent}

theorem descends_update {f : VfsEvent → VfsEvent} (hf : ∀ e, (f e).Descends e) (q x : ℕ) :
    ((s.update q f).heap x).Descends (s.heap x) := by
  by_cases hx : x = q
  · rw [hx, heap_update_self]
    exact hf _
  · rw [heap_update_of_ne _ hx]
    exact .refl _

theorem descends_writePair (e : VfsEvent) {f : VfsEvent → VfsEvent} (hf : ∀ e, (f e).Descends e)
    (x : ℕ) : ((s.writePair e f).heap x).Descends (s.heap x) := by
  unfold writePair
  cases e.pair with
  | none => exact .refl _
  | some q => exact descends_update hf q x

/-- The parts of the buffer that a merge leaves alone, and what it does with the others. -/
theorem Merged.frame {cur : VfsEvent} (h : s.Merged cur p s') :
    s'.events = s.events.erase p ∧ s'.freed = p :: s.freed ∧ s'.number = s.number - 1 ∧
      s'.pending = s.pending ∧ s'.quit = s.quit ∧ ∀ x, (s'.heap x).Descends (s.heap x) := by
  have hwrite : ∀ (e : VfsEvent) f, (s.writePair e f).events = s.events ∧
      (s.writePair e f).freed = s.freed ∧ (s.writePair e f).number = s.number ∧
      (s.writePair e f).pending = s.pending ∧ (s.writePair e f).quit = s.quit := fun e f => by
    unfold writePair
    cases e.pair <;> exact ⟨rfl, rfl, rfl, rfl, rfl⟩
  have hpair : ∀ (e : VfsEvent) {action}, action = .newFile ∨ action = .delFile → ∀ x,
      (((s.writePair e (.rewrite action)).removeEntry p).heap x).Descends (s.heap x) :=
    fun e action ha x => descends_writePair e (VfsEvent.descends_rewrite ha) x
  have hrest : ∀ (e : VfsEvent) f, ((s.writePair e f).removeEntry p).events = s.events.erase p ∧
      ((s.writePair e f).removeEntry p).freed = p :: s.freed ∧
      ((s.writePair e f).removeEntry p).number = s.number - 1 ∧
      ((s.writePair e f).removeEntry p).pending = s.pending ∧
      ((s.writePair e f).removeEntry p).quit = s.quit := fun e f => by
    obtain ⟨h₁, h₂, h₃, h₄, h₅⟩ := hwrite e f
    exact ⟨congrArg (List.erase · p) h₁, congrArg (p :: ·) h₂, congrArg (· - 1) h₃, h₄, h₅⟩
  cases h with
  | recreated => exact ⟨rfl, rfl, rfl, rfl, rfl, fun x => .refl _⟩
  | refilled => exact ⟨rfl, rfl, rfl, rfl, rfl, fun x => .refl _⟩
  | undone => exact ⟨rfl, rfl, rfl, rfl, rfl, fun x => .refl _⟩
  | refilledPaired =>
    obtain ⟨h₁, h₂, h₃, h₄, h₅⟩ := hrest (s.heap p) (.rewrite .newFile)
    exact ⟨h₁, h₂, h₃, h₄, h₅, hpair _ (.inl rfl)⟩
  | undonePaired =>
    obtain ⟨h₁, h₂, h₃, h₄, h₅⟩ := hrest (s.heap p) (.rewrite .delFile)
    exact ⟨h₁, h₂, h₃, h₄, h₅, hpair _ (.inr rfl)⟩
  | overwritten =>
    obtain ⟨h₁, h₂, h₃, h₄, h₅⟩ := hrest cur (.rewrite .delFile)
    exact ⟨h₁, h₂, h₃, h₄, h₅, hpair _ (.inr rfl)⟩

/-- An event that comes in takes a buffered one away, or goes to the end of the list. -/
theorem absorb_cases (s : Merger) (p : ℕ) :
    (s.mergeEvent (s.heap p) = none ∧
      s.absorb p = { s with events := s.events ++ [p], number := s.number + 1 }) ∨
    ∃ s' q, q ∈ s.events ∧ (s.heap q).cmpEventPath (s.heap p) = false ∧
      s.Merged (s.heap p) q s' ∧ s.absorb p = { s' with freed := p :: s'.freed } := by
  rw [absorb]
  cases hmerge : s.mergeEvent (s.heap p) with
  | none => exact .inl ⟨rfl, rfl⟩
  | some s' =>
    obtain ⟨front, q, back, fn, hsplit, hfn, -, hq⟩ := mergeEvent_eq_some hmerge
    obtain ⟨hpath, hmerged⟩ := merged_of_fn hfn hq
    exact .inr ⟨s', q, by rw [hsplit]; simp, hpath, hmerged, rfl⟩

theorem receive_frame (s : Merger) (event : VfsEvent) (hp : p ∉ s.events) :
    (s.receive p event).events = s.events ∧ (s.receive p event).freed = s.freed ∧
      (s.receive p event).number = s.number ∧ (s.receive p event).pending = s.pending ∧
      (s.receive p event).quit = s.quit ∧
      (∀ x, x ≠ p → ((s.receive p event).heap x).Descends (s.heap x)) ∧
      ((s.receive p event).heap p).Descends event := by
  rcases receive_cases s event hp with ⟨-, q, hq, -, heq⟩ | ⟨e, heq, -, he⟩
  · rw [heq]
    refine ⟨rfl, rfl, rfl, rfl, rfl, fun x hx => ?_, ?_⟩
    · rw [heap_update_of_ne _ hx]
      exact descends_update (VfsEvent.descends_setPair _) q x
    · rw [heap_update_self]
      exact VfsEvent.descends_setPair _ _
  · rw [heq]
    refine ⟨rfl, rfl, rfl, rfl, rfl, fun x hx => ?_, ?_⟩
    · rw [heap_update_of_ne _ hx]
      exact .refl _
    · rw [heap_update_self]
      rcases he with ⟨-, rfl⟩ | ⟨-, -, rfl⟩
      · exact VfsEvent.descends_setPair _ _
      · exact (VfsEvent.descends_rewrite (.inl rfl) _).trans (VfsEvent.descends_setPair _ _)

/-- The event goes into the list or is freed, and nothing else gets lost. -/
theorem absorb_frame (s : Merger) (event : VfsEvent) (hp : p ∉ s.events) :
    (((s.receive p event).absorb p).events ++ ((s.receive p event).absorb p).freed).Perm
        (p :: (s.events ++ s.freed)) ∧
      ((s.receive p event).absorb p).pending = s.pending ∧
      ((s.receive p event).absorb p).quit = s.quit ∧
      ((s.receive p event).absorb p).events ⊆ p :: s.events ∧
      (∀ x, x ≠ p → (((s.receive p event).absorb p).heap x).Descends (s.heap x)) ∧
      (((s.receive p event).absorb p).heap p).Descends event := by
  obtain ⟨hevents, hfreed, -, hpending, hquit, hheap, hcur⟩ := receive_frame s event hp
  rcases absorb_cases (s.receive p event) p with ⟨-, heq⟩ | ⟨s', q, hq, -, hmerged, heq⟩
  · rw [heq]
    refine ⟨?_, hpending, hquit, ?_, hheap, hcur⟩
    · simp only [hevents, hfreed, List.append_assoc]
      exact List.perm_middle
    · simp [hevents]
  · obtain ⟨hevents', hfreed', -, hpending', hquit', hheap'⟩ := hmerged.frame
    rw [heq]
    refine ⟨?_, hpending'.trans hpending, hquit'.trans hquit, ?_,
      fun x hx => (hheap' x).trans (hheap x hx), (hheap' p).trans hcur⟩
    · simp only [hevents', hfreed', hevents, hfreed]
      have herase := List.perm_cons_erase (hevents ▸ hq)
      refine List.perm_middle.trans (List.Perm.cons p (List.perm_middle.trans ?_))
      exact (herase.symm.append_right s.freed)
    · simp only [hevents', hevents]
      exact fun x hx => List.mem_cons_of_mem _ (List.mem_of_mem_erase hx)

/-- What `check_events` does: nothing but to set the timer, or it picks a batch. -/
theorem checkEvents_cases (s : Merger) :
    (s.number = 0 ∧ s.checkEvents = ({ s with pending := false }, [])) ∨
    (s.number = 1 ∧ s.checkEvents = ({ s with pending := true }, [])) ∨
    (s.number ≠ 0 ∧ s.number ≠ 1 ∧ mergeBufferSize ≤ s.number ∧ s.checkEvents = s.pickEvents) ∨
    (s.number ≠ 0 ∧ s.number ≠ 1 ∧ s.number < mergeBufferSize ∧ s.checkEvents = (s, [])) := by
  rw [checkEvents]
  by_cases h0 : s.number = 0
  · exact .inl ⟨h0, if_pos h0⟩
  by_cases h1 : s.number = 1
  · exact .inr (.inl ⟨h1, by rw [if_neg h0, if_pos h1]⟩)
  rw [if_neg h0, if_neg h1]
  by_cases hfull : s.number ≥ mergeBufferSize
  · exact .inr (.inr (.inl ⟨h0, h1, hfull, if_pos hfull⟩))
  · exact .inr (.inr (.inr ⟨h0, h1, by omega, if_neg hfull⟩))

/-- What leaving the lock with `batch` makes of the buffer. -/
structure Handed (s s' : Merger) (batch : List ℕ) : Prop where
  sound : s'.Sound
  perm : (batch ++ s'.events).Perm s.events
  freed_eq : s'.freed = s.freed
  descends : ∀ x, (s'.heap x).Descends (s.heap x)

theorem Picked.handed {batch : List ℕ} (h : s.Picked s' batch) (hs : s.Sound) :
    s.Handed s' batch :=
  ⟨h.sound, h.events_eq ▸ perm_split hs.nodup h.moved, h.freed_eq, fun x => .of_setPair (h.heap x)⟩

theorem Sound.checkEvents_handed (h : s.Sound) : s.Handed s.checkEvents.1 s.checkEvents.2 := by
  rcases checkEvents_cases s with ⟨-, heq⟩ | ⟨-, heq⟩ | ⟨-, -, -, heq⟩ | ⟨-, -, -, heq⟩
  · rw [heq]
    exact ⟨h.congr rfl rfl rfl rfl, .refl _, rfl, fun _ => .refl _⟩
  · rw [heq]
    exact ⟨h.congr rfl rfl rfl rfl, .refl _, rfl, fun _ => .refl _⟩
  · rw [heq]
    exact (pickEvents_spec h).handed h
  · rw [heq]
    exact ⟨h, .refl _, rfl, fun _ => .refl _⟩

/-- The events of a call are in the list, in the batch or freed. -/
theorem Sound.doEventMerge_spec (h : s.Sound) (hp : p ∉ s.events) (hok : s.FoundOk event) :
    (s.doEventMerge p event).1.Sound ∧
      ((s.doEventMerge p event).2 ++ (s.doEventMerge p event).1.events ++
        (s.doEventMerge p event).1.freed).Perm (p :: (s.events ++ s.freed)) ∧
      (∀ x, x ≠ p → ((s.doEventMerge p event).1.heap x).Descends (s.heap x)) ∧
      ((s.doEventMerge p event).1.heap p).Descends event := by
  obtain ⟨hperm, -, -, -, hheap, hcur⟩ := absorb_frame s event hp
  have hhanded := (h.absorb hp hok).checkEvents_handed
  refine ⟨hhanded.sound, ?_, fun x hx => (hhanded.descends x).trans (hheap x hx),
    (hhanded.descends p).trans hcur⟩
  rw [doEventMerge, hhanded.freed_eq]
  exact (hhanded.perm.append_right _).trans hperm

end Merger

/-! ## The monitor -/

/-- The action of the other half of a rename. -/
def Action.otherHalf : Action → Option Action
  | .renameFromFile => some .renameToFile
  | .renameToFile => some .renameFromFile
  | .renameFromFolder => some .renameToFolder
  | .renameToFolder => some .renameFromFolder
  | _ => none

namespace Monitor

variable {s s' : Monitor} {a : Act}

/-- Rename cookies are not zero, and no event but the other half of a rename has its cookie. -/
def CookieOk (s : Monitor) : Act → Prop
  | .pass _ event => (event.action.otherHalf.isSome → event.cookie ≠ 0) ∧
      ∀ e ∈ s.passed.map Prod.snd, e.cookie = event.cookie →
        e.action.otherHalf.isSome ∨ event.action.otherHalf.isSome →
          e.action.otherHalf = some event.action
  | _ => True

instance : ∀ (s : Monitor) (a : Act), Decidable (s.CookieOk a)
  | s, .pass _ event => inferInstanceAs (Decidable ((event.action.otherHalf.isSome → event.cookie ≠ 0) ∧
      ∀ e ∈ s.passed.map Prod.snd, e.cookie = event.cookie →
        e.action.otherHalf.isSome ∨ event.action.otherHalf.isSome →
          e.action.otherHalf = some event.action))
  | _, .expire | _, .send _ | _, .finish _ | _, .clearup => inferInstanceAs (Decidable True)

/-- What holds of the events in every run: the buffer is sound, an event is in one place, and what it
has become comes from what was passed. -/
structure Kept (s : Monitor) : Prop where
  sound : s.merger.Sound
  places : (s.merger.events ++ s.outgoing.flatten ++ s.merger.freed).Perm (s.passed.map Prod.fst)
  nodup : (s.passed.map Prod.fst).Nodup
  descends : ∀ pe ∈ s.passed, (s.merger.heap pe.1).Descends pe.2

theorem Kept.initial (heap : ℕ → VfsEvent) : (initial heap).Kept :=
  ⟨⟨rfl, List.nodup_nil, by simp [Monitor.initial], rfl⟩, .refl _, List.nodup_nil, by
    simp [Monitor.initial]⟩

/-- What is in the buffer has been passed. -/
theorem Kept.mem_passed (h : s.Kept) {p : ℕ} (hp : p ∈ s.merger.events) :
    ∃ e, (p, e) ∈ s.passed ∧ (s.merger.heap p).Descends e := by
  have hmem : p ∈ s.passed.map Prod.fst := h.places.subset (by simp [hp])
  obtain ⟨⟨q, e⟩, he, rfl⟩ := List.mem_map.mp hmem
  exact ⟨e, he, h.descends _ he⟩

/-- A buffered event with the cookie of an incoming second half is a first half. -/
theorem Kept.action_of_cookie (h : s.Kept) {p q : ℕ} {event : VfsEvent}
    (hok : s.CookieOk (.pass p event)) (hto : event.action = .renameToFile)
    (hq : q ∈ s.merger.events) (hcookie : (s.merger.heap q).cookie = event.cookie) :
    (s.merger.heap q).action = .renameFromFile := by
  obtain ⟨e, he, hdescends⟩ := h.mem_passed hq
  have hne : event.cookie ≠ 0 := hok.1 (by rw [hto]; rfl)
  rcases hdescends.cases with ⟨haction, hc⟩ | ⟨-, hc⟩
  · have hother := hok.2 e (List.mem_map_of_mem he) (hc.symm.trans hcookie) (.inr (by rw [hto]; rfl))
    rw [hto] at hother
    rw [haction]
    cases hact : e.action <;> rw [hact] at hother <;> simp [Action.otherHalf] at hother ⊢
  · exact absurd (hcookie.symm.trans hc) hne

theorem Kept.pairingOk (h : s.Kept) {p : ℕ} {event : VfsEvent}
    (hok : s.CookieOk (.pass p event)) : s.merger.PairingOk event := by
  intro hto q hq hcookie
  have hfrom := h.action_of_cookie hok hto hq hcookie
  refine ⟨hfrom, ?_⟩
  -- its partner would be a first half as well
  by_contra hpair
  obtain ⟨w, hw⟩ := Option.ne_none_iff_exists'.mp hpair
  have hpartners := h.sound.partners_of_pair hq (.inl hfrom) hw
  rcases hpartners with hh | hh
  · have hfrom' := h.action_of_cookie hok hto (Merger.Partners.mem (.inr hh))
      (hh.cookie_eq.symm.trans hcookie)
    exact absurd (hh.to_action.symm.trans hfrom') (by decide)
  · exact absurd (hfrom.symm.trans hh.to_action) (by decide)

theorem leave_outgoing (s : Monitor) (r : Merger × List ℕ) :
    (s.leave r).outgoing.flatten = s.outgoing.flatten ++ r.2 := by
  rw [leave]
  by_cases hr : r.2 = []
  · simp [hr]
  · simp [hr]

/-- A batch that is being sent, among the others. -/
theorem outgoing_split {i : ℕ} {batch : List ℕ} (h : s.outgoing[i]? = some batch) :
    ∃ front back, s.outgoing = front ++ batch :: back ∧
      (∀ b, s.outgoing.set i b = front ++ b :: back) ∧ s.outgoing.eraseIdx i = front ++ back := by
  obtain ⟨hi, hbatch⟩ := List.getElem?_eq_some_iff.mp h
  refine ⟨s.outgoing.take i, s.outgoing.drop (i + 1), ?_, fun b => ?_, ?_⟩
  · rw [← hbatch, List.getElem_cons_drop, List.take_append_drop]
  · rw [List.set_eq_take_append_cons_drop, if_pos hi]
  · exact List.eraseIdx_eq_take_drop_succ _ _

/-- One step keeps it all. -/
theorem Kept.step (h : s.Kept) (hok : s.CookieOk a) (hstep : s.step a = some s') : s'.Kept := by
  cases a with
  | pass p event =>
    rw [Monitor.step] at hstep
    split at hstep
    · simp at hstep
    rename_i hfresh
    obtain rfl := Option.some.inj hstep
    have hp : p ∉ s.merger.events := fun hp => by
      obtain ⟨e, he, -⟩ := h.mem_passed hp
      exact hfresh (List.mem_map_of_mem he)
    obtain ⟨hsound, hperm, hheap, hcur⟩ := h.sound.doEventMerge_spec hp (h.pairingOk hok).foundOk
    refine ⟨hsound, ?_, ?_, fun pe hpe => ?_⟩
    · show ((s.merger.doEventMerge p event).1.events ++
        (s.leave (s.merger.doEventMerge p event)).outgoing.flatten ++
        (s.merger.doEventMerge p event).1.freed).Perm ((s.passed ++ [(p, event)]).map Prod.fst)
      rw [leave_outgoing, List.perm_iff_count]
      intro x
      have hplaces := h.places.count_eq x
      have hmoved := hperm.count_eq x
      simp only [List.count_append, List.count_cons, List.map_append, List.map_cons,
        List.map_nil, List.count_nil] at hplaces hmoved ⊢
      omega
    · show ((s.passed ++ [(p, event)]).map Prod.fst).Nodup
      rw [List.map_append]
      exact List.nodup_append.mpr ⟨h.nodup, by simp, by
        rintro x hx y hy rfl
        rw [List.mem_singleton.mp hy] at hx
        exact hfresh hx⟩
    · rcases List.mem_append.mp hpe with hpe | hpe
      · have hne : pe.1 ≠ p := fun hne => hfresh (hne ▸ List.mem_map_of_mem hpe)
        exact (hheap pe.1 hne).trans (h.descends pe hpe)
      · obtain rfl := List.mem_singleton.mp hpe
        exact hcur
  | expire =>
    rw [Monitor.step] at hstep
    split at hstep
    · obtain rfl := Option.some.inj hstep
      have hsound : ({ s.merger with pending := false } : Merger).Sound := h.sound.congr rfl rfl rfl rfl
      have hhanded := (Merger.pickEvents_spec hsound).handed hsound
      refine ⟨hhanded.sound, ?_, h.nodup, fun pe hpe =>
        (hhanded.descends pe.1).trans (h.descends pe hpe)⟩
      rw [leave_outgoing, List.perm_iff_count]
      intro x
      have hplaces := h.places.count_eq x
      have hmoved := hhanded.perm.count_eq x
      have hfreed : (s.leave s.merger.eventTimeoutNotifyCallback).merger.freed = s.merger.freed :=
        hhanded.freed_eq
      simp only [hfreed, List.count_append] at hplaces hmoved ⊢
      simp only [leave, Merger.eventTimeoutNotifyCallback]
      omega
    · simp at hstep
  | send i =>
    rw [Monitor.step] at hstep
    split at hstep
    · rename_i p batch hout
      obtain ⟨front, back, hsplit, hset, -⟩ := outgoing_split hout
      obtain rfl := Option.some.inj hstep
      refine ⟨h.sound.congr rfl rfl rfl rfl, ?_, h.nodup, h.descends⟩
      have hplaces := h.places
      rw [hsplit] at hplaces
      rw [List.perm_iff_count] at hplaces ⊢
      intro x
      have hcount := hplaces x
      simp only [hset, List.flatten_append, List.flatten_cons, List.count_append,
        List.count_cons] at hcount ⊢
      omega
    · simp at hstep
  | finish i =>
    rw [Monitor.step] at hstep
    split at hstep
    · rename_i hout
      obtain ⟨front, back, hsplit, -, herase⟩ := outgoing_split hout
      obtain rfl := Option.some.inj hstep
      refine ⟨h.sound.congr s.merger.heap_rearm s.merger.events_rearm s.merger.number_rearm
        s.merger.fault_rearm, ?_, h.nodup, fun pe hpe => ?_⟩
      · have hplaces := h.places
        rw [hsplit] at hplaces
        simp only [Merger.events_rearm, Merger.freed_rearm, herase]
        simpa using hplaces
      · simp only [Merger.heap_rearm]
        exact h.descends pe hpe
    · simp at hstep
  | clearup =>
    rw [Monitor.step] at hstep
    split at hstep
    · obtain rfl := Option.some.inj hstep
      exact ⟨h.sound.congr rfl rfl rfl rfl, h.places, h.nodup, h.descends⟩
    · simp at hstep

theorem Reachable.kept {ok : Monitor → Act → Prop} (h : Reachable ok s)
    (hcookie : ∀ s a, ok s a → s.CookieOk a) : s.Kept := by
  induction h with
  | initial heap => exact .initial heap
  | step _ hok hstep ih => exact ih.step (hcookie _ _ hok) hstep

/-- In every run in which rename cookies are not zero and their own: the counter is the length of the
list, the halves of a rename that have a pair have each other, in order, no pair has been followed to
an event outside the list, and every event passed is in one place once. -/
theorem reachable_sound (h : Reachable CookieOk s) :
    s.merger.number = s.merger.events.length ∧
      (∀ p ∈ s.merger.events, (s.merger.heap p).action = .renameToFile →
        ∀ q, (s.merger.heap p).pair = some q → [q, p].Sublist s.merger.events ∧
          (s.merger.heap q).action = .renameFromFile ∧ (s.merger.heap q).pair = some p ∧
          (s.merger.heap q).cookie = (s.merger.heap p).cookie) ∧
      (∀ q ∈ s.merger.events, (s.merger.heap q).action = .renameFromFile →
        ∀ p, (s.merger.heap q).pair = some p → [q, p].Sublist s.merger.events ∧
          (s.merger.heap p).action = .renameToFile ∧ (s.merger.heap p).pair = some q) ∧
      s.merger.fault = false ∧
      (s.merger.events ++ s.outgoing.flatten ++ s.merger.freed).Perm (s.passed.map Prod.fst) ∧
      (s.passed.map Prod.fst).Nodup := by
  have hkept := h.kept fun _ _ hok => hok
  refine ⟨hkept.sound.number_eq, fun p hp hto q hpair => ?_, fun q hq hfrom p hpair => ?_,
    hkept.sound.fault_eq, hkept.places, hkept.nodup⟩
  · rcases hkept.sound.partners_of_pair hp (.inr hto) hpair with hh | hh
    · exact absurd (hto.symm.trans hh.from_action) (by decide)
    · exact ⟨hh.before, hh.from_action, hh.from_pair, hh.cookie_eq⟩
  · rcases hkept.sound.partners_of_pair hq (.inl hfrom) hpair with hh | hh
    · exact ⟨hh.before, hh.to_action, hh.to_pair⟩
    · exact absurd (hfrom.symm.trans hh.to_action) (by decide)

/-- A file event on the device 1. -/
def fileEvent (action : Action) (cookie : ℕ) (path : Bytes) : VfsEvent := ⟨action, cookie, 1, path, none⟩

/-- The sample run passes the halves of a rename of `/a` to `/b`. -/
def sampleRename : List Act :=
  [.pass 0 (fileEvent .renameFromFile 7 [47, 97]), .pass 1 (fileEvent .renameToFile 7 [47, 98])]

theorem reachable_sound_sample :
    ∃ s, runs CookieOk (initial fun _ => fileEvent .newFile 0 []) sampleRename = some s ∧
      s.merger.events = [0, 1] ∧ (s.merger.heap 1).pair = some 0 ∧
      [0, 1].Sublist s.merger.events := by
  obtain ⟨s, hs⟩ : ∃ s, runs CookieOk (initial fun _ => fileEvent .newFile 0 []) sampleRename =
      some s := ⟨_, rfl⟩
  obtain rfl := Option.some.inj hs
  exact ⟨_, hs, rfl, rfl, ((reachable_sound (.runs (.initial _) hs)).2.1 1 (by decide) rfl 0 rfl).1⟩

end Monitor

end DeepinAnything.EventMerge
