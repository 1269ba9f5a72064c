import Mathlib.Data.List.Perm.Subperm
import DeepinAnything.EventMerge.Run

/-!
# The timer that flushes the buffer

The timer is set when the buffer holds one event, and again when a batch has been sent. A first half
of a rename that waits for its second half is not handed out, so the timer may expire without sending
anything; it is not set again then. The events that come in later make the buffer longer than one and
do not set it either.
-/

namespace DeepinAnything.EventMerge

namespace Merger

variable {s s' : Merger} {p : ℕ} {event : VfsEvent}

/-- Something in the buffer would be handed out. -/
def HasDeliverable (s : Merger) : Prop :=
  ∃ p ∈ s.events, s.quit = true ∨ (s.heap p).deliverable = true

/-! ## Counting -/

/-- The counter is the length of the list, and no event is in the list twice. -/
structure Counted (s : Merger) : Prop where
  number_eq : s.number = s.events.length
  nodup : s.events.Nodup

namespace Counted

theorem congr (h : s.Counted) (hevents : s'.events = s.events) (hnumber : s'.number = s.number) :
    s'.Counted := ⟨by rw [hnumber, hevents, h.number_eq], hevents ▸ h.nodup⟩

/-- One event is taken out of the list. -/
theorem erase (h : s.Counted) (hp : p ∈ s.events) (hevents : s'.events = s.events.erase p)
    (hnumber : s'.number = s.number - 1) : s'.Counted := by
  refine ⟨?_, hevents ▸ h.nodup.erase p⟩
  have hlen := List.length_erase_of_mem hp
  have hpos := List.length_pos_of_mem hp
  rw [hnumber, hevents, hlen, h.number_eq]
  omega

theorem absorb (h : s.Counted) (hp : p ∉ s.events) : ((s.receive p event).absorb p).Counted := by
  obtain ⟨hevents, -, hnumber, -, -, -, -⟩ := receive_frame s event hp
  have hr : (s.receive p event).Counted := h.congr hevents hnumber
  rcases absorb_cases (s.receive p event) p with ⟨-, heq⟩ | ⟨s', q, hq, -, hmerged, heq⟩
  · rw [heq]
    refine ⟨by simp [hr.number_eq], ?_⟩
    refine List.nodup_append.mpr ⟨hr.nodup, by simp, ?_⟩
    rintro x hx y hy rfl
    rw [List.mem_singleton.mp hy, hevents] at hx
    exact hp hx
  · obtain ⟨hevents', -, hnumber', -⟩ := hmerged.frame
    rw [heq]
    exact hr.erase hq hevents' hnumber'

/-- The loop hands out what it can; if that is nothing, nothing has happened. -/
theorem pickLoop (h : s.Counted) {ptrs : List ℕ} (hnodup : ptrs.Nodup) (hptrs : ptrs ⊆ s.events)
    (i : ℕ) (batch : List ℕ) : ∃ s' moved, Merger.pickLoop ptrs i s batch = (s', batch ++ moved) ∧
      s'.Counted ∧ s'.events ⊆ s.events ∧
      (moved = [] → s' = s ∧ ∀ x ∈ ptrs, (s.heap x).deliverable = false) := by
  induction ptrs generalizing s i batch with
  | nil => exact ⟨s, [], by simp [Merger.pickLoop], h, List.Subset.refl _, fun _ => ⟨rfl, by simp⟩⟩
  | cons p next ih =>
    obtain ⟨hp, hnext⟩ := List.cons_subset.mp hptrs
    obtain ⟨hfresh, hnodup⟩ := List.nodup_cons.mp hnodup
    rw [Merger.pickLoop]
    simp only
    by_cases hdeliver : (s.heap p).deliverable = true
    · rw [if_pos hdeliver]
      generalize hs₁ : (if (s.heap p).action = .renameFromFile then
        (s.moveEvent p).writePair (s.heap p) (.setPair none) else s.moveEvent p) = s₁
      have hs₁ : s₁.events = s.events.erase p ∧ s₁.number = s.number - 1 := by
        rw [← hs₁]
        unfold writePair
        split
        · cases (s.heap p).pair <;> exact ⟨rfl, rfl⟩
        · exact ⟨rfl, rfl⟩
      have hc₁ := h.erase hp hs₁.1 hs₁.2
      have hsub : s₁.events ⊆ s.events := by
        rw [hs₁.1]
        exact List.erase_subset
      split
      · exact ⟨s₁, [p], rfl, hc₁, hsub, by simp⟩
      · obtain ⟨s', moved, heq, hc, hevents, -⟩ := ih hc₁ hnodup (fun x hx => by
          rw [hs₁.1]
          exact (h.nodup.mem_erase_iff).mpr ⟨fun hxp => hfresh (hxp ▸ hx), hnext hx⟩) (i + 1)
          (batch ++ [p])
        exact ⟨s', p :: moved, by rw [heq, List.append_assoc]; rfl, hc,
          List.Subset.trans hevents hsub, by simp⟩
    · rw [if_neg hdeliver]
      obtain ⟨s', moved, heq, hc, hevents, hnil⟩ := ih h hnodup hnext i batch
      refine ⟨s', moved, heq, hc, hevents, fun hmoved => ⟨(hnil hmoved).1, fun x hx => ?_⟩⟩
      rcases List.mem_cons.mp hx with rfl | hx
      · exact Bool.not_eq_true _ ▸ hdeliver
      · exact (hnil hmoved).2 x hx

/-- Handing out nothing means that there was nothing to hand out. -/
theorem pickEvents (h : s.Counted) : s.pickEvents.1.Counted ∧ s.pickEvents.1.events ⊆ s.events ∧
    (s.pickEvents.2 = [] → s.pickEvents.1.events = s.events ∧ ¬ s.pickEvents.1.HasDeliverable) := by
  rw [Merger.pickEvents]
  by_cases hquit : s.quit = true
  · rw [if_pos hquit]
    refine ⟨⟨by simp [h.number_eq], List.nodup_nil⟩, by simp, fun hnil => ⟨hnil.symm, ?_⟩⟩
    rintro ⟨x, hx, -⟩
    simp at hx
  · rw [if_neg hquit]
    obtain ⟨s', moved, heq, hc, hevents, hnil⟩ := h.pickLoop h.nodup (List.Subset.refl _) 0 []
    rw [heq]
    refine ⟨hc, hevents, fun hmoved => ?_⟩
    obtain ⟨rfl, hnone⟩ := hnil hmoved
    refine ⟨rfl, ?_⟩
    rintro ⟨x, hx, hq | hd⟩
    · exact hquit hq
    · rw [hnone x hx] at hd
      simp at hd

theorem checkEvents (h : s.Counted) : s.checkEvents.1.Counted ∧
    s.checkEvents.1.events ⊆ s.events ∧
    (s.checkEvents.2 = [] → s.checkEvents.1.HasDeliverable → s.checkEvents.1.pending = true ∨
      s.HasDeliverable ∧ s.checkEvents.1 = s ∧ s.number ≠ 0 ∧ s.number ≠ 1 ∧
        s.number < mergeBufferSize) := by
  rcases checkEvents_cases s with ⟨h0, heq⟩ | ⟨-, heq⟩ | ⟨-, -, -, heq⟩ | ⟨h0, h1, hfull, heq⟩
  · rw [heq]
    refine ⟨h.congr rfl rfl, List.Subset.refl _, fun _ => ?_⟩
    rintro ⟨x, hx, -⟩
    have hlen := List.length_pos_of_mem (show x ∈ s.events from hx)
    rw [h.number_eq] at h0
    omega
  · rw [heq]
    exact ⟨h.congr rfl rfl, List.Subset.refl _, fun _ _ => .inl rfl⟩
  · rw [heq]
    obtain ⟨hc, hsub, hnil⟩ := h.pickEvents
    exact ⟨hc, hsub, fun hbatch hd => absurd hd (hnil hbatch).2⟩
  · rw [heq]
    exact ⟨h, List.Subset.refl _, fun _ hd => .inr ⟨hd, rfl, h0, h1, hfull⟩⟩

end Counted

/-! ## Nothing but first halves that wait -/

/-- All that is in the buffer is first halves of renames without a second half. -/
def Waiting (s : Merger) : Prop :=
  ∀ p ∈ s.events, (s.heap p).action = .renameFromFile ∧ (s.heap p).pair = none

theorem waiting_of_not_hasDeliverable (h : ¬ s.HasDeliverable) : s.Waiting := by
  intro p hp
  have hd : (s.heap p).deliverable ≠ true := fun hd => h ⟨p, hp, .inr hd⟩
  simpa [VfsEvent.deliverable] using hd

/-- The event cancels a first half that waits, or waits itself. -/
def Undelivered (s : Merger) (event : VfsEvent) : Prop :=
  event.action = .renameFromFile ∨
    (event.action.isNew ∨
      event.action = .renameToFile ∧ ∀ q ∈ s.events, (s.heap q).cookie ≠ event.cookie) ∧
    ∃ q ∈ s.events, (s.heap q).cmpEventPath event = false

instance (s : Merger) (event : VfsEvent) : Decidable (s.Undelivered event) :=
  inferInstanceAs (Decidable (_ ∨ _))

namespace Waiting

/-- Among first halves that wait, an event of the kind that creates a file cancels one with its path. -/
theorem mergeEvent_ne_none (h : s.Waiting) {e : VfsEvent} (hnew : e.action.isNew) {q : ℕ} (hq : q ∈ s.events)
    (hpath : (s.heap q).cmpEventPath e = false) : s.mergeEvent e ≠ none := by
  have hfn : actionMergeFns e.action = some mergeNewFile := by
    cases hact : e.action <;> rw [hact] at hnew <;> simp [Action.isNew, Action.code] at hnew <;> rfl
  intro hnone
  rw [mergeEvent, hfn, Option.bind_some, List.findSome?_eq_none_iff] at hnone
  have hq' := hnone q (by simpa using hq)
  rw [mergeNewFile] at hq'
  simp [(h q hq).1, hpath] at hq'

/-- Such an event leaves nothing to hand out. -/
theorem absorb (h : s.Waiting) (hp : p ∉ s.events) (hevent : s.Undelivered event) :
    ((s.receive p event).absorb p).Waiting := by
  rcases receive_cases s event hp with ⟨hto, q, hq, hcookie, -⟩ | ⟨e, heq, hpair, he⟩
  · -- the halves of a rename would meet
    rcases hevent with hfrom | ⟨hnew | ⟨-, hnone⟩, -⟩
    · exact absurd (hto.symm.trans hfrom) (by decide)
    · exact absurd hnew (by rw [hto]; decide)
    · exact absurd hcookie (hnone q hq)
  rw [heq]
  generalize hr : s.update p (fun _ => e) = r
  have hevents : r.events = s.events := by rw [← hr]; rfl
  have hsame : ∀ x ∈ s.events, r.heap x = s.heap x := fun x hx => by
    rw [← hr]
    exact heap_update_of_ne _ (ne_of_mem_of_not_mem hx hp) _
  have hcur : r.heap p = e := by
    rw [← hr]
    exact heap_update_self _ _ _
  have hw : r.Waiting := fun x hx => by
    rw [hevents] at hx
    rw [hsame x hx]
    exact h x hx
  rcases absorb_cases r p with ⟨hnone, habsorb⟩ | ⟨s', q, hq, -, hmerged, habsorb⟩
  · rw [habsorb]
    intro x hx
    rcases List.mem_append.mp hx with hx | hx
    · exact hw x hx
    obtain rfl := List.mem_singleton.mp hx
    show (r.heap x).action = _ ∧ (r.heap x).pair = none
    rw [hcur] at hnone ⊢
    refine ⟨?_, hpair⟩
    rcases hevent with hfrom | ⟨hnew, q, hq, hpath⟩
    · rcases he with ⟨-, rfl⟩ | ⟨hto, -⟩
      · exact hfrom
      · exact absurd (hfrom.symm.trans hto) (by decide)
    · -- it would have cancelled the first half
      have hisNew : e.action.isNew = true := by
        rcases he with ⟨hto, rfl⟩ | ⟨-, -, rfl⟩
        · exact hnew.resolve_right fun hh => hto hh.1
        · rfl
      have hpath' : (r.heap q).cmpEventPath e = false := by
        rw [hsame q hq]
        rcases he with ⟨-, rfl⟩ | ⟨-, -, rfl⟩ <;> exact hpath
      exact absurd hnone (hw.mergeEvent_ne_none hisNew (hevents ▸ hq) hpath')
  · rw [habsorb]
    have hkind := hw q hq
    cases hmerged with
    | recreated _ hact => exact absurd (hkind.1.symm.trans hact) (by decide)
    | refilled => exact fun x hx => hw x (List.mem_of_mem_erase hx)
    | refilledPaired _ _ hsome => exact absurd (hkind.2.symm.trans hsome) (by simp)
    | undone _ hact => exact absurd hact (by rw [hkind.1]; decide)
    | undonePaired _ hact => exact absurd (hkind.1.symm.trans hact) (by decide)
    | overwritten _ hact => exact absurd (hkind.1.symm.trans hact) (by decide)

/-- Every other event goes to the end of the list, and something can be handed out. -/
theorem absorb_hasDeliverable (h : s.Waiting) (hp : p ∉ s.events) (hevent : ¬ s.Undelivered event) :
    ((s.receive p event).absorb p).events = s.events ++ [p] ∧
      ((s.receive p event).absorb p).HasDeliverable := by
  obtain ⟨hevents, -, -, -, -, hheap, hcur⟩ := receive_frame s event hp
  have hr : (∀ x ∈ s.events, ((s.receive p event).heap x).action = .renameFromFile) ∧
      ((s.receive p event).heap p).action ≠ .renameFromFile ∧
      (((s.receive p event).heap p).action.isNew → event.action.isNew ∨
        event.action = .renameToFile ∧ ∀ q ∈ s.events, (s.heap q).cookie ≠ event.cookie) := by
    rcases receive_cases s event hp with ⟨hto, q, hq, -, heq⟩ | ⟨e, heq, -, he⟩
    · rw [heq, heap_update_self]
      refine ⟨fun x hx => ?_, by simp [hto], by simp [hto, Action.isNew, Action.code]⟩
      rw [heap_update_of_ne _ (ne_of_mem_of_not_mem hx hp)]
      by_cases hxq : x = q
      · rw [hxq, heap_update_self]
        exact (h q hq).1
      · rw [heap_update_of_ne _ hxq]
        exact (h x hx).1
    · rw [heq, heap_update_self]
      refine ⟨fun x hx => ?_, ?_, ?_⟩
      · rw [heap_update_of_ne _ (ne_of_mem_of_not_mem hx hp)]
        exact (h x hx).1
      · rcases he with ⟨-, rfl⟩ | ⟨-, -, rfl⟩
        · exact fun hfrom => hevent (.inl hfrom)
        · exact fun hfrom => by simp [VfsEvent.rewrite] at hfrom
      · rcases he with ⟨-, rfl⟩ | ⟨hto, hnone, rfl⟩
        · exact fun hnew => .inl hnew
        · exact fun _ => .inr ⟨hto, hnone⟩
  obtain ⟨hfrom, hne, hisNew⟩ := hr
  rcases absorb_cases (s.receive p event) p with ⟨-, habsorb⟩ | ⟨s', q, hq, hpath, hmerged, -⟩
  · rw [habsorb]
    refine ⟨by rw [← hevents], p, by simp, .inr ?_⟩
    simpa [VfsEvent.deliverable] using .inl hne
  · exfalso
    rw [hevents] at hq
    have hkind := hfrom q hq
    have hpath' : (s.heap q).cmpEventPath event = false := by
      have hq' := hheap q (ne_of_mem_of_not_mem hq hp)
      rwa [VfsEvent.cmpEventPath, hq'.dev_eq, hq'.path_eq, hcur.dev_eq, hcur.path_eq] at hpath
    cases hmerged with
    | recreated _ hact => exact absurd (hkind.symm.trans hact) (by decide)
    | refilled hnew => exact hevent (.inr ⟨hisNew hnew, q, hq, hpath'⟩)
    | refilledPaired hnew => exact hevent (.inr ⟨hisNew hnew, q, hq, hpath'⟩)
    | undone _ hact => exact absurd hact (by rw [hkind]; decide)
    | undonePaired _ hact => exact absurd (hkind.symm.trans hact) (by decide)
    | overwritten _ hact => exact absurd (hkind.symm.trans hact) (by decide)

end Waiting

end Merger

/-! ## The timer -/

namespace Monitor

variable {s s' : Monitor} {a : Act}

/-- If something can be handed out and nothing is being sent, the timer is set. -/
def Armed (s : Monitor) : Prop :=
  s.outgoing = [] → s.merger.HasDeliverable → s.merger.pending = true

/-- The timer is set, something is being sent, or the buffer is empty when an event comes in; or the
event makes the buffer full, or leaves nothing to hand out. -/
def TimerOk (s : Monitor) : Act → Prop
  | .pass _ event => s.merger.pending = true ∨ s.outgoing ≠ [] ∨ s.merger.events = [] ∨
      mergeBufferSize ≤ s.merger.events.length + 1 ∨ s.merger.Undelivered event
  | .clearup => s.merger.pending = true ∨ s.outgoing ≠ [] ∨ s.merger.events = []
  | _ => True

instance : ∀ (s : Monitor) (a : Act), Decidable (s.TimerOk a)
  | _, .pass _ _ | _, .clearup => inferInstanceAs (Decidable (_ ∨ _))
  | _, .expire | _, .send _ | _, .finish _ => inferInstanceAs (Decidable True)

/-- The counter is right, and what is in the buffer has been passed. -/
structure Counted (s : Monitor) : Prop where
  merger : s.merger.Counted
  passed : s.merger.events ⊆ s.passed.map Prod.fst

theorem Counted.not_mem (h : s.Counted) {p : ℕ} (hp : p ∉ s.passed.map Prod.fst) :
    p ∉ s.merger.events := fun hmem => hp (h.passed hmem)

theorem leave_outgoing_eq_nil {r : Merger × List ℕ} :
    (s.leave r).outgoing = [] ↔ s.outgoing = [] ∧ r.2 = [] := by
  rw [leave]
  by_cases hr : r.2 = []
  · simp [hr]
  · simp [hr]

theorem Counted.initial (heap : ℕ → VfsEvent) : (initial heap).Counted :=
  ⟨⟨rfl, List.nodup_nil⟩, List.nil_subset _⟩

theorem Armed.waiting (h : s.Armed) (hpending : s.merger.pending ≠ true) (hout : s.outgoing = [])
    (hne : s.merger.events ≠ []) : s.merger.quit = false ∧ s.merger.Waiting := by
  have hd : ¬ s.merger.HasDeliverable := fun hd => hpending (h hout hd)
  refine ⟨?_, Merger.waiting_of_not_hasDeliverable hd⟩
  obtain ⟨x, hx⟩ := List.exists_mem_of_ne_nil _ hne
  exact Bool.not_eq_true _ ▸ fun hquit => hd ⟨x, hx, .inl hquit⟩

/-- The buffer that an event has come to. -/
theorem Counted.absorb (h : s.Counted) {p : ℕ} (event : VfsEvent)
    (hp : p ∉ s.passed.map Prod.fst) :
    ((s.merger.receive p event).absorb p).Counted ∧
      ((s.merger.receive p event).absorb p).pending = s.merger.pending ∧
      ((s.merger.receive p event).absorb p).quit = s.merger.quit ∧
      ((s.merger.receive p event).absorb p).events ⊆ p :: s.merger.events := by
  obtain ⟨-, hpending, hquit, hsub, -, -⟩ := Merger.absorb_frame s.merger event (h.not_mem hp)
  exact ⟨h.merger.absorb (h.not_mem hp), hpending, hquit, hsub⟩

theorem Counted.pass (h : s.Counted) (harmed : s.Armed) {p : ℕ} {event : VfsEvent}
    (hp : p ∉ s.passed.map Prod.fst) :
    (s.leave (s.merger.doEventMerge p event)).Armed ↔ s.TimerOk (.pass p event) := by
  obtain ⟨hcounted, hpending, hquit, hsub⟩ := h.absorb event hp
  have hlength : s.merger.events = [] →
      ((s.merger.receive p event).absorb p).events.length ≤ 1 := fun hnil => by
    have hle := (List.subperm_of_subset hcounted.nodup hsub).length_le
    simpa [hnil] using hle
  have hmerge : s.merger.doEventMerge p event =
      ((s.merger.receive p event).absorb p).checkEvents := rfl
  constructor
  · intro harmed'
    by_contra hbad
    obtain ⟨h₁, h₂, h₃, h₄, h₅⟩ : s.merger.pending ≠ true ∧ s.outgoing = [] ∧ s.merger.events ≠ [] ∧
        s.merger.events.length + 1 < mergeBufferSize ∧ ¬ s.merger.Undelivered event := by
      simpa [TimerOk, not_or] using hbad
    obtain ⟨-, hwaiting⟩ := harmed.waiting h₁ h₂ h₃
    obtain ⟨hevents, hd⟩ := hwaiting.absorb_hasDeliverable (h.not_mem hp) h₅
    have hnumber := hcounted.number_eq
    rw [hevents, List.length_append, List.length_singleton] at hnumber
    have hpos := List.length_pos_iff.mpr h₃
    rcases Merger.checkEvents_cases ((s.merger.receive p event).absorb p) with
      ⟨h0, -⟩ | ⟨h1, -⟩ | ⟨-, -, hfull, -⟩ | ⟨-, -, -, heq⟩
    · omega
    · omega
    · omega
    · -- the event stays, and nothing sets the timer
      rw [hmerge, heq] at harmed'
      exact h₁ (hpending.symm.trans (harmed' (leave_outgoing_eq_nil.mpr ⟨h₂, rfl⟩) hd))
  · intro hok hout hd
    obtain ⟨h₂, hbatch⟩ := leave_outgoing_eq_nil.mp hout
    rw [hmerge] at hbatch hd
    rcases hcounted.checkEvents.2.2 hbatch hd with hset | ⟨hd', heq, h0, h1, hfull⟩
    · exact hset
    show (s.merger.doEventMerge p event).1.pending = true
    rw [hmerge, heq, hpending]
    by_contra h₁
    have hnumber := hcounted.number_eq
    by_cases h₃ : s.merger.events = []
    · have := hlength h₃
      omega
    obtain ⟨hquit', hwaiting⟩ := harmed.waiting h₁ h₂ h₃
    by_cases h₅ : s.merger.Undelivered event
    · obtain ⟨x, hx, hq | hx'⟩ := hd'
      · rw [hquit, hquit'] at hq
        simp at hq
      · obtain ⟨hfrom, hnone⟩ := hwaiting.absorb (h.not_mem hp) h₅ x hx
        simp [VfsEvent.deliverable, hfrom, hnone] at hx'
    · obtain ⟨hevents, -⟩ := hwaiting.absorb_hasDeliverable (h.not_mem hp) h₅
      rw [hevents, List.length_append, List.length_singleton] at hnumber
      have h₄ : mergeBufferSize ≤ s.merger.events.length + 1 := by
        simpa [TimerOk, h₁, h₂, h₃, h₅] using hok
      omega

/-- One step, for the counter and for the timer. -/
theorem Counted.step (h : s.Counted) (harmed : s.Armed) (hstep : s.step a = some s') :
    s'.Counted ∧ (s'.Armed ↔ s.TimerOk a) := by
  cases a with
  | pass p event =>
    rw [Monitor.step] at hstep
    split at hstep
    · simp at hstep
    rename_i hp
    obtain rfl := Option.some.inj hstep
    obtain ⟨hcounted, -, -, hsub⟩ := h.absorb event hp
    refine ⟨⟨hcounted.checkEvents.1, fun x hx => ?_⟩, h.pass harmed hp⟩
    show x ∈ (s.passed ++ [(p, event)]).map Prod.fst
    rw [List.map_append, List.mem_append]
    rcases List.mem_cons.mp (hsub (hcounted.checkEvents.2.1 hx)) with rfl | hx
    · exact .inr (by simp)
    · exact .inl (h.passed hx)
  | expire =>
    rw [Monitor.step] at hstep
    split at hstep
    · obtain rfl := Option.some.inj hstep
      have hc : ({ s.merger with pending := false } : Merger).Counted := h.merger.congr rfl rfl
      obtain ⟨hc', hsub, hnil⟩ := hc.pickEvents
      refine ⟨⟨hc', fun x hx => h.passed (hsub hx)⟩, iff_of_true (fun hout hd => ?_) trivial⟩
      exact absurd hd (hnil (leave_outgoing_eq_nil.mp hout).2).2
    · simp at hstep
  | send i =>
    rw [Monitor.step] at hstep
    split at hstep
    · rename_i p batch hout
      obtain ⟨front, back, -, hset, -⟩ := outgoing_split hout
      obtain rfl := Option.some.inj hstep
      refine ⟨⟨h.merger.congr rfl rfl, h.passed⟩, iff_of_true (fun hnil => ?_) trivial⟩
      simp [hset] at hnil
    · simp at hstep
  | finish i =>
    rw [Monitor.step] at hstep
    split at hstep
    · obtain rfl := Option.some.inj hstep
      have hevents := s.merger.events_rearm
      refine ⟨⟨h.merger.congr hevents s.merger.number_rearm, hevents.symm ▸ h.passed⟩,
        iff_of_true (fun _ hd => ?_) trivial⟩
      obtain ⟨x, hx, -⟩ := hd
      have hx' : x ∈ s.merger.events := hevents ▸ hx
      have hpos := List.length_pos_of_mem hx'
      have hge : s.merger.number ≥ 1 := by
        rw [h.merger.number_eq]
        omega
      show s.merger.rearm.pending = true
      rw [Merger.rearm, if_pos hge]
    · simp at hstep
  | clearup =>
    rw [Monitor.step] at hstep
    split at hstep
    · obtain rfl := Option.some.inj hstep
      refine ⟨⟨h.merger.congr rfl rfl, h.passed⟩, fun harmed' => ?_, fun hok hout hd => ?_⟩
      · by_cases hout : s.outgoing = []
        · by_cases hne : s.merger.events = []
          · exact .inr (.inr hne)
          · obtain ⟨x, hx⟩ := List.exists_mem_of_ne_nil _ hne
            exact .inl (harmed' hout ⟨x, hx, .inl rfl⟩)
        · exact .inr (.inl hout)
      · rcases hok with hset | hne | hnil
        · exact hset
        · exact absurd hout hne
        · obtain ⟨x, hx, -⟩ := hd
          simp [hnil] at hx
    · simp at hstep

/-- In a run whose steps find the timer as they need it, the timer is set whenever something waits to
be handed out; and the first step that does not leaves the buffer without a timer. -/
theorem reachable_armed (h : Reachable TimerOk s) :
    s.Armed ∧ ∀ a s', s.step a = some s' → (s'.Armed ↔ s.TimerOk a) := by
  have hcounted : s.Counted ∧ s.Armed := by
    induction h with
    | initial heap => exact ⟨.initial heap, fun _ ⟨x, hx, _⟩ => absurd hx (List.not_mem_nil)⟩
    | step _ hok hstep ih => exact ⟨(ih.1.step ih.2 hstep).1, (ih.1.step ih.2 hstep).2.mpr hok⟩
  exact ⟨hcounted.2, fun _ _ hstep => (hcounted.1.step hcounted.2 hstep).2⟩

theorem reachable_armed_sample :
    ∃ s, runs TimerOk (initial fun _ => fileEvent .newFile 0 []) sampleRename = some s ∧
      s.merger.events = [0, 1] ∧ s.merger.pending = true := by
  obtain ⟨s, hs⟩ : ∃ s, runs TimerOk (initial fun _ => fileEvent .newFile 0 []) sampleRename =
      some s := ⟨_, rfl⟩
  obtain rfl := Option.some.inj hs
  exact ⟨_, hs, rfl, (reachable_armed (.runs (.initial _) hs)).1 rfl ⟨0, by decide, .inr rfl⟩⟩

/-- The timer expires between the halves of a rename: both halves stay in the buffer, and the timer
is not set. -/
theorem reachable_not_armed : ∃ s, Reachable CookieOk s ∧ s.outgoing = [] ∧
    s.merger.HasDeliverable ∧ s.merger.pending = false := by
  obtain ⟨s, hs⟩ : ∃ s, runs CookieOk (initial fun _ => fileEvent .newFile 0 [])
      [.pass 0 (fileEvent .renameFromFile 7 [47, 97]), .expire,
        .pass 1 (fileEvent .renameToFile 7 [47, 98])] = some s := ⟨_, rfl⟩
  refine ⟨s, .runs (.initial _) hs, ?_⟩
  obtain rfl := Option.some.inj hs
  exact ⟨rfl, ⟨0, by decide, .inr rfl⟩, rfl⟩

end Monitor

end DeepinAnything.EventMerge
