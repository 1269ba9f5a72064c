import DeepinAnything.EventMerge.Probes
import DeepinAnything.EventMerge.Tidy

/-!
# What is delivered is what has happened

What has been sent, what is on its way and what is buffered are one log. Picking a batch and sending it move the
seam in the log and leave the log as it is; an event that comes in makes the log longer, or takes an event out that
it undoes. So the log leads to the tree that there is, in every run in which the batches are sent one behind the
other and every merge is right.
-/

namespace DeepinAnything.EventMerge

open ByteMem PathTree

namespace Merger

variable {s s' : Merger} {t : FileTree} {dev : ℕ} {pre : List VfsEvent} {p q : ℕ} {event : VfsEvent}
  {front back : List ℕ}

/-! ## Handing out a batch -/

/-- Two buffers that differ in their pairs, and in what is no part of the log, show the same events. -/
theorem view_eq_of_setPair {x : ℕ} (h : s'.heap x = s.heap x ∨ s'.heap x = (s.heap x).setPair none) :
    s'.view x = s.view x := by
  rcases h with h | h <;> rw [view, h] <;> rfl

/-- A first half that cannot be handed out yet is the last event of the buffer. -/
theorem Tidy.last_of_not_deliverable (h : s.Tidy t dev pre) (hs : s.Sound)
    (hsplit : s.events = front ++ p :: back) (hp : (s.heap p).deliverable = false) : back = [] := by
  obtain ⟨hfrom, hpair⟩ : (s.heap p).action = .renameFromFile ∧ (s.heap p).pair = none := by
    simpa [VfsEvent.deliverable] using hp
  cases back with
  | nil => rfl
  | cons y back =>
    exfalso
    obtain ⟨hto, -⟩ := (adjacent_of_split h.regular.chain hsplit).1 hfrom
    have hy : y ∈ s.events.tail := by
      rw [hsplit]
      cases front <;> simp
    obtain ⟨z, hz⟩ := Option.ne_none_iff_exists'.mp (h.linked y hy hto)
    rcases hs.partners_of_pair (List.mem_of_mem_tail hy) (.inr hto) hz with hh | hh
    · exact absurd (hto.symm.trans hh.from_action) (by decide)
    · rw [List.append_cons] at hsplit
      obtain ⟨l, hl⟩ := hh.split h.regular.chain h.own hs.nodup hsplit
      obtain ⟨-, hpz⟩ := List.append_inj' hl rfl
      obtain rfl : p = z := by simpa using hpz
      simp [hh.from_pair] at hpair

/-- The events that can be handed out stand before those that cannot. -/
theorem Tidy.deliverables_append (h : s.Tidy t dev pre) (hs : s.Sound) :
    ∃ rest, s.events = s.deliverables s.events ++ rest := by
  by_cases hall : ∀ p ∈ s.events, (s.heap p).deliverable = true
  · exact ⟨[], by rw [List.append_nil, deliverables, List.filter_eq_self.mpr hall]⟩
  · obtain ⟨p, hp, hnot⟩ : ∃ p ∈ s.events, (s.heap p).deliverable = false := by simpa using hall
    obtain ⟨front, back, hsplit⟩ := List.append_of_mem hp
    obtain rfl := h.last_of_not_deliverable hs hsplit hnot
    refine ⟨[p], ?_⟩
    have hfront : ∀ x ∈ front, (s.heap x).deliverable = true := fun x hx => by
      obtain ⟨l, l', rfl⟩ := List.append_of_mem hx
      by_contra hnot'
      rw [List.append_assoc, List.cons_append] at hsplit
      have hnil := h.last_of_not_deliverable hs hsplit (by simpa using hnot')
      simp at hnil
    rw [deliverables, hsplit, List.filter_append, List.filter_eq_self.mpr hfront,
      List.filter_cons_of_neg (by simp [hnot]), List.filter_nil, List.append_nil]

/-- A batch is the beginning of the buffer. -/
theorem Tidy.pickEvents_split (h : s.Tidy t dev pre) (hs : s.Sound) (hquit : s.quit = false) :
    s.events = s.pickEvents.2 ++ s.pickEvents.1.events := by
  obtain ⟨hpicks, hevents, -⟩ := pickEvents_eq hs.nodup hs.pairsOk
  obtain ⟨rest, hrest⟩ := h.deliverables_append hs
  have hsplit : s.events = s.picks ++ ((s.deliverables s.events).drop dumpSize ++ rest) := by
    rw [picks, hquit, if_neg Bool.false_ne_true, ← List.append_assoc, List.take_append_drop]
    exact hrest
  have hnodup := hs.nodup
  rw [hpicks, hevents]
  generalize s.picks = l at hsplit ⊢
  generalize (s.deliverables s.events).drop dumpSize ++ rest = l' at hsplit
  rw [hsplit] at hnodup ⊢
  rw [List.filter_append, List.filter_eq_nil_iff.mpr (by simp), List.nil_append, List.filter_eq_self.mpr]
  exact fun x hx => by simpa using fun hxl => (List.disjoint_of_nodup_append hnodup) hxl hx

/-- The log stays what it is when a batch is picked. -/
theorem Tidy.pickEvents_shown (h : s.Tidy t dev pre) (hs : s.Sound) (hquit : s.quit = false) :
    s.pickEvents.2.map s.view ++ s.pickEvents.1.shown = s.shown := by
  obtain ⟨-, -, hheap⟩ := pickEvents_eq hs.nodup hs.pairsOk
  have hview : s.pickEvents.1.view = s.view := funext fun x => view_eq_of_setPair (hheap x)
  rw [shown, shown, hview, ← List.map_append, ← h.pickEvents_split hs hquit]

/-- Picking a batch leaves the buffer tidy, behind what has been handed out. -/
theorem Tidy.pickEvents (h : s.Tidy t dev pre) (hs : s.Sound) (hquit : s.quit = false) :
    s.pickEvents.1.Tidy t dev (pre ++ s.pickEvents.2.map s.view) := by
  obtain ⟨-, -, hheap⟩ := pickEvents_eq hs.nodup hs.pairsOk
  have hsplit := h.pickEvents_split hs hquit
  have hsound := (pickEvents_spec hs).sound
  have hlog : pre ++ s.pickEvents.2.map s.view ++ s.pickEvents.1.shown = pre ++ s.shown := by
    rw [List.append_assoc, h.pickEvents_shown hs hquit]
  have hsub : s.pickEvents.1.events.Sublist s.events := by
    rw [hsplit]
    exact List.sublist_append_right _ _
  have hsame : ∀ x, (s.pickEvents.1.heap x).action = (s.heap x).action ∧
      (s.pickEvents.1.heap x).path = (s.heap x).path ∧ (s.pickEvents.1.heap x).cookie = (s.heap x).cookie ∧
      (s.pickEvents.1.heap x).dev = (s.heap x).dev := fun x => by
    rcases hheap x with heq | heq <;> rw [heq] <;> exact ⟨rfl, rfl, rfl, rfl⟩
  have hpaired : ∀ x, (s.pickEvents.1.heap x).pair ≠ none → s.pickEvents.1.heap x = s.heap x := fun x hx =>
    (hheap x).resolve_right fun heq => hx (by rw [heq]; rfl)
  refine ⟨hlog ▸ h.regular, fun y hy hto => ?_, ?_, ?_, fun e he hfrom hnil => ?_, fun x hx => ?_⟩
  · -- the first half of a second half that stays behind another event stays too
    rw [(hsame y).1] at hto
    obtain ⟨x, l, hrest⟩ : ∃ x l, s.pickEvents.1.events = x :: l := by
      cases hevents : s.pickEvents.1.events with
      | nil => simp [hevents] at hy
      | cons x l => exact ⟨x, l, rfl⟩
    rw [hrest] at hsplit hy
    obtain ⟨l₁, l₂, rfl⟩ := List.append_of_mem hy
    have hpair := h.linked y (by rw [hsplit]; cases s.pickEvents.2 <;> simp) hto
    have hy' : y ∈ s.events := by
      rw [hsplit]
      simp
    obtain ⟨z, hz⟩ := Option.ne_none_iff_exists'.mp hpair
    rcases hs.partners_of_pair hy' (.inr hto) hz with hh | hh
    · exact absurd (hto.symm.trans hh.from_action) (by decide)
    rw [← List.cons_append, ← List.append_assoc] at hsplit
    obtain ⟨l', hl'⟩ := hh.split h.regular.chain h.own hs.nodup hsplit
    have hzmem : z ∈ s.pickEvents.1.events := by
      rw [hrest]
      rcases List.eq_nil_or_concat' l₁ with rfl | ⟨l₃, w, rfl⟩
      · obtain ⟨-, hxz⟩ := List.append_inj' hl' rfl
        obtain rfl : x = z := by simpa using hxz
        simp
      · rw [← List.cons_append, ← List.append_assoc] at hl'
        obtain ⟨-, hwz⟩ := List.append_inj' hl' rfl
        obtain rfl : w = z := by simpa using hwz
        simp
    have hzheap : s.pickEvents.1.heap z = s.heap z := by
      by_contra hne
      obtain ⟨w, hw⟩ := hs.pickEvents_touched hne
      exact absurd (hh.from_action.symm.trans hw.to_action) (by decide)
    rcases hsound.partners_of_pair hzmem (.inl (hzheap ▸ hh.from_action)) (hzheap ▸ hh.from_pair) with hh' | hh'
    · rw [hh'.to_pair]
      simp
    · exact absurd (hh.from_action.symm.trans (hzheap ▸ hh'.to_action)) (by decide)
  · refine (h.apart.sublist hsub).imp fun {x y} hxy hpath htakes hundo => ?_
    rw [(hsame x).2.1, (hsame y).2.1] at hpath
    rw [VfsEvent.Takes, (hsame y).1] at htakes
    refine hxy hpath htakes ?_
    rcases hundo with hnew | ⟨hto, hpair⟩
    · exact .inl ((hsame x).1 ▸ hnew)
    · exact .inr ⟨(hsame x).1 ▸ hto, hpaired x hpair ▸ hpair⟩
  · intro x hx y hy hxfrom hyfrom hcookie
    rw [(hsame x).1] at hxfrom
    rw [(hsame y).1] at hyfrom
    rw [(hsame x).2.2.1, (hsame y).2.2.1] at hcookie
    exact h.own x (hsub.subset hx) y (hsub.subset hy) hxfrom hyfrom hcookie
  · -- the last event of all, a first half, would have been picked without its partner
    rw [hlog] at he
    obtain ⟨l, q, hq, hlast⟩ := getLast_shown pre (h.last e he hfrom)
    obtain rfl := Option.some.inj (hlast.symm.trans he)
    rw [hnil, List.append_nil] at hsplit
    have hmem : q ∈ s.pickEvents.2 := by
      rw [← hsplit, hq]
      simp
    have hdeliver : (s.heap q).deliverable = true := by
      rw [(pickEvents_eq hs.nodup hs.pairsOk).1, picks, hquit, if_neg Bool.false_ne_true] at hmem
      exact (List.mem_filter.mp (List.mem_of_mem_take hmem)).2
    have hqfrom : (s.heap q).action = .renameFromFile := hfrom
    obtain ⟨w, hw⟩ : ∃ w, (s.heap q).pair = some w := by
      simpa [VfsEvent.deliverable, hqfrom, Option.isSome_iff_exists] using hdeliver
    rcases hs.partners_of_pair (by rw [hq]; simp) (.inl hqfrom) hw with hh | hh
    · obtain ⟨l', hl'⟩ := hh.split_from h.regular.chain h.own hs.nodup hq
      cases hl'
    · exact absurd (hqfrom.symm.trans hh.to_action) (by decide)
  · rw [(hsame x).2.2.2]
    exact h.dev_eq x (hsub.subset hx)

/-- A buffer with the same events is as tidy. -/
theorem Tidy.congr (h : s.Tidy t dev pre) (hheap : s'.heap = s.heap) (hevents : s'.events = s.events) :
    s'.Tidy t dev pre := by
  have hshown : s'.shown = s.shown := by
    have hview : s'.view = s.view := funext fun x => congrArg (VfsEvent.setPair none) (congrFun hheap x)
    rw [shown, shown, hevents, hview]
  refine ⟨hshown ▸ h.regular, ?_, ?_, ?_, hshown ▸ hevents ▸ h.last, ?_⟩
  · rw [hheap, hevents]
    exact h.linked
  · rw [hheap, hevents]
    exact h.apart
  · rw [OwnCookies, hheap, hevents]
    exact h.own
  · rw [hheap, hevents]
    exact h.dev_eq

/-- What leaving the lock makes of a tidy buffer: some of the log is handed out, in order. -/
structure Leaves (t : FileTree) (dev : ℕ) (pre : List VfsEvent) (s : Merger) (r : Merger × List ℕ) : Prop where
  tidy : r.1.Tidy t dev (pre ++ r.2.map s.view)
  shown_eq : r.2.map s.view ++ r.1.shown = s.shown
  quit_eq : r.1.quit = s.quit
  view_eq : ∀ x, r.1.view x = s.view x
  events_sub : r.1.events ⊆ s.events

theorem Tidy.leaves (h : s.Tidy t dev pre) (hs : s.Sound) (hquit : s.quit = false) :
    Leaves t dev pre s s.pickEvents := by
  obtain ⟨-, -, hheap⟩ := pickEvents_eq hs.nodup hs.pairsOk
  refine ⟨h.pickEvents hs hquit, h.pickEvents_shown hs hquit, (pickEvents_spec hs).quit_eq,
    fun x => view_eq_of_setPair (hheap x), fun x hx => ?_⟩
  rw [h.pickEvents_split hs hquit]
  exact List.mem_append_right _ hx

/-- A buffer that is kept as it is hands nothing out. -/
theorem Tidy.leaves_nil (h : s.Tidy t dev pre) (hheap : s'.heap = s.heap) (hevents : s'.events = s.events)
    (hquit : s'.quit = s.quit) : Leaves t dev pre s (s', []) := by
  have hview : s'.view = s.view := funext fun x => congrArg (VfsEvent.setPair none) (congrFun hheap x)
  refine ⟨?_, ?_, hquit, congrFun hview, hevents ▸ List.Subset.refl _⟩
  · rw [List.map_nil, List.append_nil]
    exact h.congr hheap hevents
  · rw [List.map_nil, List.nil_append, shown, shown, hevents, hview]

theorem Tidy.checkEvents_leaves (h : s.Tidy t dev pre) (hs : s.Sound) (hquit : s.quit = false) :
    Leaves t dev pre s s.checkEvents := by
  rcases checkEvents_cases s with ⟨-, heq⟩ | ⟨-, heq⟩ | ⟨-, -, -, heq⟩ | ⟨-, -, -, heq⟩ <;> rw [heq]
  · exact h.leaves_nil rfl rfl rfl
  · exact h.leaves_nil rfl rfl rfl
  · exact h.leaves hs hquit
  · exact h.leaves_nil rfl rfl rfl

end Merger

/-! ## The monitor -/

namespace Monitor

variable {s s' : Monitor} {a : Act} {t : FileTree} {dev : ℕ} {w : World}

/-- The events that have been handed out: what has been sent, and what is on its way. -/
def handed (s : Monitor) : List VfsEvent :=
  s.sent.map (fun pe => pe.2.setPair none) ++ s.outgoing.flatten.map s.merger.view

/-- The events that have happened. -/
def happened (s : Monitor) : List VfsEvent := s.passed.map Prod.snd

/-- An event that is merged undoes one behind which no folder is moved or removed above its path; if it undoes the
making of a file, there was none before. -/
def UndoesOk (t : FileTree) (s : Monitor) (event : VfsEvent) : Prop :=
  ∀ front q back, s.merger.events = front ++ q :: back → s.merger.Undoes event q →
    (∀ x ∈ back, ¬ s.merger.Undoes event x) →
    (∀ x ∈ back, (s.merger.heap x).OfFolder → ¬ (s.merger.heap x).edit.Touches pathSep event.path) ∧
      ((s.merger.heap q).Undoable → (replay t (s.handed ++ front.map s.merger.view)).settled.tree event.path = none)

theorem undoesOk_iff {event : VfsEvent} : s.UndoesOk t event ↔ ∀ i (hi : i < s.merger.events.length),
    s.merger.Undoes event s.merger.events[i] → (∀ x ∈ s.merger.events.drop (i + 1), ¬ s.merger.Undoes event x) →
    (∀ x ∈ s.merger.events.drop (i + 1), (s.merger.heap x).OfFolder →
        ¬ (s.merger.heap x).edit.Touches pathSep event.path) ∧
      ((s.merger.heap s.merger.events[i]).Undoable →
        (replay t (s.handed ++ (s.merger.events.take i).map s.merger.view)).settled.tree event.path = none) := by
  refine ⟨fun h i hi => ?_, fun h front q back hsplit => ?_⟩
  · refine h _ _ _ ?_
    rw [List.getElem_cons_drop, List.take_append_drop]
  · have hlen : front.length < s.merger.events.length := by
      rw [hsplit]
      simp
    have hi := h front.length hlen
    have hdrop : s.merger.events.drop (front.length + 1) = back := by
      rw [hsplit, ← List.drop_drop, List.drop_left, List.drop_one, List.tail_cons]
    have htake : s.merger.events.take front.length = front := by
      rw [hsplit, List.take_left]
    have hget : s.merger.events[front.length] = q := by
      simp [hsplit]
    rwa [hdrop, htake, hget] at hi

instance (t : FileTree) (s : Monitor) (event : VfsEvent) : Decidable (s.UndoesOk t event) :=
  decidable_of_iff _ undoesOk_iff.symm

/-- The steps of a history of one device: events that can happen where they come, with cookies of their own, are
passed, and the module stays loaded. -/
def HistoryOk (t : FileTree) (dev : ℕ) (s : Monitor) : Act → Prop
  | .pass p event => s.CookieOk (.pass p event) ∧ event.dev = dev ∧ (replay t s.happened).Legal event
  | .expire | .send _ | .finish _ => True
  | .clearup => False

instance (t : FileTree) (dev : ℕ) (s : Monitor) : ∀ a, Decidable (HistoryOk t dev s a)
  | .pass p event =>
    inferInstanceAs (Decidable (s.CookieOk (.pass p event) ∧ _ ∧ (replay t s.happened).Legal event))
  | .expire | .send _ | .finish _ => inferInstanceAs (Decidable True)
  | .clearup => inferInstanceAs (Decidable False)

/-- Events of a batch are sent when the batches before it have been. -/
def InTurn (s : Monitor) : Act → Prop
  | .send i => ∀ batch ∈ s.outgoing.take i, batch = []
  | _ => True

instance (s : Monitor) : ∀ a, Decidable (InTurn s a)
  | .send i => inferInstanceAs (Decidable (∀ batch ∈ s.outgoing.take i, batch = []))
  | .pass _ _ | .expire | .finish _ | .clearup => inferInstanceAs (Decidable True)

/-- An event that is passed undoes something if it is merged. -/
def MergesOk (t : FileTree) (s : Monitor) : Act → Prop
  | .pass _ event => s.UndoesOk t event
  | _ => True

instance (t : FileTree) (s : Monitor) : ∀ a, Decidable (MergesOk t s a)
  | .pass _ event => inferInstanceAs (Decidable (s.UndoesOk t event))
  | .expire | .send _ | .finish _ | .clearup => inferInstanceAs (Decidable True)

/-- The steps of a history in which events that are merged undo something, and batches are sent one behind the
other. -/
structure TreeOk (t : FileTree) (dev : ℕ) (s : Monitor) (a : Act) : Prop where
  history : s.HistoryOk t dev a
  merges : s.MergesOk t a
  inTurn : s.InTurn a

instance (t : FileTree) (dev : ℕ) (s : Monitor) (a : Act) : Decidable (TreeOk t dev s a) :=
  decidable_of_iff (s.HistoryOk t dev a ∧ s.MergesOk t a ∧ s.InTurn a)
    ⟨fun h => ⟨h.1, h.2.1, h.2.2⟩, fun h => ⟨h.1, h.2, h.3⟩⟩

theorem HistoryOk.cookieOk (h : HistoryOk t dev s a) : s.CookieOk a := by
  cases a with
  | pass p event => exact h.1
  | _ => trivial

/-- What holds in a run: the buffer is tidy behind what has been handed out, and the log leads to the tree that there
is. -/
structure Delivers (t : FileTree) (dev : ℕ) (s : Monitor) : Prop where
  kept : s.Kept
  quit_eq : s.merger.quit = false
  tidy : s.merger.Tidy t dev s.handed
  follows : Follows t (s.handed ++ s.merger.shown) (replay t s.happened)

namespace Delivers

theorem initial (heap : ℕ → VfsEvent) : (initial heap).Delivers t dev := by
  refine ⟨.initial heap, rfl, ⟨⟨.nil, by simp [handed, Monitor.initial, Merger.shown], trivial⟩,
    by simp [Monitor.initial], .nil, by simp [Merger.OwnCookies, Monitor.initial],
    by simp [handed, Monitor.initial, Merger.shown], by simp [Monitor.initial]⟩, ?_⟩
  exact ⟨rfl, by simp [World.Sound, replay, happened, Monitor.initial],
    by simp [handed, Monitor.initial, Merger.shown]⟩

variable {p : ℕ} {event : VfsEvent}

/-- What is on its way is not in the buffer any more. -/
theorem not_mem_events (h : s.Delivers t dev) {x : ℕ} (hx : x ∈ s.outgoing.flatten) : x ∉ s.merger.events := by
  have hnodup := h.kept.places.nodup_iff.mpr h.kept.nodup
  exact fun hevents => List.disjoint_of_nodup_append (List.nodup_append.mp hnodup).1 hevents hx

/-- An event that comes in meets what the buffer is about. -/
theorem comes (h : s.Delivers t dev) (hcookie : s.CookieOk (.pass p event)) (hdev : event.dev = dev)
    (hlegal : (replay t s.happened).Legal event) (hp : p ∉ s.passed.map Prod.fst) :
    Merger.Comes t dev s.handed s.merger (replay t s.happened) p event := by
  refine ⟨h.kept.sound, h.tidy, h.follows, fun hmem => ?_, h.kept.pairingOk hcookie, hlegal, hdev,
    fun hfrom x hx hxfrom hsame => ?_⟩
  · obtain ⟨e, he, -⟩ := h.kept.mem_passed hmem
    exact hp (List.mem_map_of_mem he)
  · obtain ⟨e, he, hdescends⟩ := h.kept.mem_passed hx
    rcases hdescends.cases with ⟨haction, hc⟩ | ⟨haction, -⟩
    · have hother := hcookie.2 e (List.mem_map_of_mem he) (hc.symm.trans hsame) (.inr (by rw [hfrom]; rfl))
      rw [← haction, hxfrom, hfrom] at hother
      cases hother
    · rw [hxfrom] at haction
      rcases haction with haction | haction <;> cases haction

/-- The tree before a buffered event is the one that the edits before it lead to. -/
theorem undoesOk_iff_mergesRight (h : s.Delivers t dev) :
    s.UndoesOk t event ↔ s.merger.MergesRight t s.handed event := by
  refine forall₃_congr fun front q back => forall_congr' fun hsplit => forall₂_congr fun hq hlast =>
    and_congr_right fun _ => ?_
  have hregular := h.tidy.regular
  rw [Merger.shown, hsplit, List.map_append, ← List.append_assoc] at hregular
  rw [hregular.of_append.replayed.settled_eq]

end Delivers

/-- What is handed out when the lock is left. -/
theorem handed_leave {m : Merger} {r : Merger × List ℕ}
    (hout : ∀ x ∈ s.outgoing.flatten, r.1.view x = s.merger.view x)
    (hview : ∀ x, r.1.view x = m.view x) : (s.leave r).handed = s.handed ++ r.2.map m.view := by
  rw [handed, handed, leave_outgoing, List.map_append, List.append_assoc]
  refine congrArg (s.sent.map _ ++ ·) (congrArg₂ (· ++ ·) (List.map_congr_left hout) ?_)
  exact List.map_congr_left fun x _ => hview x

/-- A batch that leaves the lock moves the seam in the log. -/
theorem leave_follows {m : Merger} {r : Merger × List ℕ} (hr : Merger.Leaves t dev s.handed m r)
    (hfollows : Follows t (s.handed ++ m.shown) w) (hout : ∀ x ∈ s.outgoing.flatten, r.1.view x = s.merger.view x) :
    (s.leave r).merger.Tidy t dev (s.leave r).handed ∧
      Follows t ((s.leave r).handed ++ (s.leave r).merger.shown) w := by
  rw [handed_leave hout hr.view_eq]
  refine ⟨hr.tidy, ?_⟩
  rw [List.append_assoc]
  show Follows t (s.handed ++ (r.2.map m.view ++ r.1.shown)) w
  rw [hr.shown_eq]
  exact hfollows

/-- The batches before the one at `i`, that batch, and the ones behind it. -/
theorem outgoing_take {i : ℕ} {batch : List ℕ} (h : s.outgoing[i]? = some batch) :
    s.outgoing = s.outgoing.take i ++ batch :: s.outgoing.drop (i + 1) ∧
      ∀ b, s.outgoing.set i b = s.outgoing.take i ++ b :: s.outgoing.drop (i + 1) := by
  obtain ⟨hi, hbatch⟩ := List.getElem?_eq_some_iff.mp h
  refine ⟨?_, fun b => ?_⟩
  · rw [← hbatch, List.getElem_cons_drop, List.take_append_drop]
  · rw [List.set_eq_take_append_cons_drop, if_pos hi]

/-- Two states with the same log. -/
structure SameLog (s s' : Monitor) : Prop where
  heap_eq : s'.merger.heap = s.merger.heap
  events_eq : s'.merger.events = s.merger.events
  quit_eq : s'.merger.quit = s.merger.quit
  handed_eq : s'.handed = s.handed
  passed_eq : s'.passed = s.passed

theorem SameLog.view_eq (h : SameLog s s') : s'.merger.view = s.merger.view :=
  funext fun x => congrArg (VfsEvent.setPair none) (congrFun h.heap_eq x)

/-- Sending the next event moves it within the log, if the batches before have been sent. -/
theorem sameLog_send {i : ℕ} (hbefore : ∀ batch ∈ s.outgoing.take i, batch = [])
    (hstep : s.step (.send i) = some s') : SameLog s s' := by
  rw [Monitor.step] at hstep
  split at hstep
  · rename_i p batch hout
    obtain ⟨hsplit, hset⟩ := outgoing_take hout
    obtain rfl := Option.some.inj hstep
    have hfront : (s.outgoing.take i).flatten = [] := List.flatten_eq_nil_iff.mpr hbefore
    have hnew : (s.outgoing.set i batch).flatten = batch ++ (s.outgoing.drop (i + 1)).flatten := by
      rw [hset, List.flatten_append, hfront, List.nil_append, List.flatten_cons]
    have hold : s.outgoing.flatten = p :: (batch ++ (s.outgoing.drop (i + 1)).flatten) := by
      refine (congrArg List.flatten hsplit).trans ?_
      rw [List.flatten_append, hfront, List.nil_append, List.flatten_cons, List.cons_append]
    refine ⟨rfl, rfl, rfl, ?_, rfl⟩
    rw [handed, handed, hold]
    simp only [hnew, List.map_append, List.map_cons, List.map_nil, List.append_assoc, List.cons_append, List.nil_append]
    rfl
  · simp at hstep

theorem sameLog_finish {i : ℕ} (hstep : s.step (.finish i) = some s') : SameLog s s' := by
  rw [Monitor.step] at hstep
  split at hstep
  · rename_i hout
    obtain ⟨front, back, hsplit, -, herase⟩ := outgoing_split hout
    obtain rfl := Option.some.inj hstep
    have hquit : s.merger.rearm.quit = s.merger.quit := by
      unfold Merger.rearm
      split <;> rfl
    have hview : s.merger.rearm.view = s.merger.view :=
      funext fun x => congrArg (VfsEvent.setPair none) (congrFun s.merger.heap_rearm x)
    have hflatten : (s.outgoing.eraseIdx i).flatten = s.outgoing.flatten := by
      rw [herase, hsplit]
      simp
    refine ⟨s.merger.heap_rearm, s.merger.events_rearm, hquit, ?_, rfl⟩
    rw [handed, handed, hview, hflatten]
  · simp at hstep

namespace Delivers

variable {p : ℕ} {event : VfsEvent}

/-- The buffer of a state in which an event comes in leaves the lock. -/
theorem leaves_pass (h : s.Delivers t dev) (hcomes : Merger.Comes t dev s.handed s.merger w p event)
    (hp : p ∉ s.passed.map Prod.fst) (htidy : ((s.merger.receive p event).absorb p).Tidy t dev s.handed) :
    Merger.Leaves t dev s.handed ((s.merger.receive p event).absorb p) (s.merger.doEventMerge p event) ∧
      (s.merger.doEventMerge p event).1.quit = false ∧
      ∀ x ∈ s.outgoing.flatten, (s.merger.doEventMerge p event).1.view x = s.merger.view x := by
  have hfound := hcomes.pairing.foundOk
  have hsound := h.kept.sound.absorb hcomes.fresh hfound
  obtain ⟨-, -, hquit, -⟩ := Merger.absorb_frame s.merger event hcomes.fresh
  have hr := htidy.checkEvents_leaves hsound (hquit.trans h.quit_eq)
  refine ⟨hr, hr.quit_eq.trans (hquit.trans h.quit_eq), fun x hx => ?_⟩
  -- what is on its way is not written any more
  have hxp : x ≠ p := by
    rintro rfl
    exact hp (h.kept.places.subset (by simp [hx]))
  refine congrArg (VfsEvent.setPair none) ?_
  by_contra hne
  have hnot := h.not_mem_events hx
  rcases h.kept.sound.doEventMerge_touched hcomes.fresh hfound hxp hne with ⟨-, hx'⟩ | ⟨z, hz⟩
  · exact hnot (Merger.mem_of_found hx').1
  · exact hnot (Merger.Partners.mem hz.symm)

theorem of_sameLog (h : s.Delivers t dev) (hkept : s'.Kept) (hsame : SameLog s s') : s'.Delivers t dev := by
  refine ⟨hkept, hsame.quit_eq.trans h.quit_eq, hsame.handed_eq ▸ h.tidy.congr hsame.heap_eq hsame.events_eq, ?_⟩
  rw [hsame.handed_eq, Merger.shown, hsame.events_eq, hsame.view_eq, happened, hsame.passed_eq]
  exact h.follows

/-- One step keeps it. -/
theorem step (h : s.Delivers t dev) (hok : s.TreeOk t dev a) (hstep : s.step a = some s') : s'.Delivers t dev := by
  have hkept := h.kept.step hok.history.cookieOk hstep
  cases a with
  | pass p event =>
    rw [Monitor.step] at hstep
    split at hstep
    · simp at hstep
    rename_i hp
    obtain rfl := Option.some.inj hstep
    obtain ⟨⟨hcookie, hdev, hlegal⟩, hmerges, -⟩ := hok
    have hcomes := h.comes hcookie hdev hlegal hp
    obtain ⟨htidy, hfollows⟩ := hcomes.absorb (h.undoesOk_iff_mergesRight.mp hmerges)
    obtain ⟨hr, hquit, hview⟩ := h.leaves_pass hcomes hp htidy
    obtain ⟨htidy', hfollows'⟩ := leave_follows hr hfollows hview
    refine ⟨hkept, hquit, htidy', ?_⟩
    rw [happened, List.map_append, List.map_singleton, replay_concat]
    exact hfollows'
  | expire =>
    rw [Monitor.step] at hstep
    split at hstep
    · obtain rfl := Option.some.inj hstep
      have htidy : ({ s.merger with pending := false } : Merger).Tidy t dev s.handed := h.tidy.congr rfl rfl
      have hr := htidy.leaves (h.kept.sound.congr rfl rfl rfl rfl) h.quit_eq
      obtain ⟨htidy', hfollows⟩ := leave_follows hr h.follows fun x _ => hr.view_eq x
      exact ⟨hkept, hr.quit_eq.trans h.quit_eq, htidy', hfollows⟩
    · simp at hstep
  | send i => exact h.of_sameLog hkept (sameLog_send hok.inTurn hstep)
  | finish i => exact h.of_sameLog hkept (sameLog_finish hstep)
  | clearup => exact hok.history.elim

end Delivers

theorem Reachable.delivers (h : Reachable (TreeOk t dev) s) : s.Delivers t dev := by
  induction h with
  | initial heap => exact .initial heap
  | step _ hok hstep ih => exact ih.step hok hstep

end Monitor

/-! ## Trees -/

/-- A world whose waiting half has no pair. -/
def World.unpaired (w : World) : World := ⟨w.tree, w.waiting.map (VfsEvent.setPair none)⟩

theorem World.apply_unpaired (w : World) (e : VfsEvent) :
    w.unpaired.apply (e.setPair none) = (w.apply e).unpaired := by
  obtain ⟨tree, waiting⟩ := w
  rw [World.apply, World.apply, VfsEvent.action_setPair]
  cases e.action with
  | renameToFile =>
    cases waiting with
    | none => rfl
    | some f =>
      show _ = World.unpaired (if f.cookie = e.cookie then ⟨moveFile f.path e.path tree, none⟩ else ⟨tree, some f⟩)
      rw [apply_ite World.unpaired]
      rfl
  | renameToFolder =>
    cases waiting with
    | none => rfl
    | some f =>
      show _ = World.unpaired (if f.cookie = e.cookie then ⟨graft pathSep f.path e.path tree, none⟩ else ⟨tree, some f⟩)
      rw [apply_ite World.unpaired]
      rfl
  | _ => rfl

/-- The pairs of events say nothing about the tree. -/
theorem replay_setPair (t : FileTree) (events : List VfsEvent) :
    replay t (events.map (VfsEvent.setPair none)) = (replay t events).unpaired := by
  induction events using List.reverseRecOn with
  | nil => rfl
  | append_singleton events e ih =>
    rw [List.map_append, List.map_singleton, replay_concat, replay_concat, ih, World.apply_unpaired]

namespace Monitor

variable {s : Monitor} {t : FileTree} {dev : ℕ}

/-- The log leads to the tree that there is. -/
theorem Delivers.tree_eq (h : s.Delivers t dev) (hdone : (replay t s.happened).waiting = none) :
    (replay t (s.handed ++ s.merger.shown)).tree = (replay t s.happened).tree := by
  have hw := h.tidy.regular.replayed
  have hsettled := hw.settled_eq.trans h.follows.settled_eq.symm
  rw [World.settled_of_none hdone, World.settled_of_not_first] at hsettled
  · exact congrArg State.tree hsettled
  · intro f hf hfrom
    obtain ⟨f', hf', -⟩ := h.follows.waiting f (hw.last_eq f hf hfrom) hfrom
    rw [hdone] at hf'
    cases hf'

/-- When nothing is left, all of the log has been sent. -/
theorem tree_handed (s : Monitor) (hevents : s.merger.events = []) (hout : s.outgoing.flatten = []) :
    (replay t (s.handed ++ s.merger.shown)).tree = (replay t (s.sent.map Prod.snd)).tree := by
  rw [handed, Merger.shown, hevents, hout, List.map_nil, List.append_nil, List.append_nil]
  have hsame := congrArg World.tree (replay_setPair t (s.sent.map Prod.snd))
  rw [List.map_map] at hsame
  exact hsame

/-- In every run in which the events are of one device, can happen where they come and carry cookies of their own,
every merge undoes what nothing behind it concerns, and the batches are sent one behind the other: whenever no rename
is half reported, what has been sent, what is on its way and what is buffered make of the first tree the tree that
there is; and so does what has been sent, when nothing is left. -/
theorem reachable_tree (h : Reachable (TreeOk t dev) s) (hdone : (replay t s.happened).waiting = none) :
    (replay t (s.handed ++ s.merger.shown)).tree = (replay t s.happened).tree ∧
      (s.merger.events = [] → s.outgoing.flatten = [] →
        (replay t (s.sent.map Prod.snd)).tree = (replay t s.happened).tree) := by
  have htree := h.delivers.tree_eq hdone
  exact ⟨htree, fun hevents hout => (tree_handed s hevents hout).symm.trans htree⟩

/-- A tree with the files `/a` and `/b`. -/
def sampleTree : FileTree := fun p => if p = [47, 97] ∨ p = [47, 98] then some .file else none

/-- The file `/a` is renamed and deleted under its new name, and what is left of it is sent. -/
def sampleMove (path : Bytes) : List Act :=
  [.pass 0 (fileEvent .renameFromFile 7 [47, 97]), .pass 1 (fileEvent .renameToFile 7 path),
    .pass 2 (fileEvent .delFile 0 path), .expire, .send 0, .finish 0]

theorem reachable_tree_sample :
    ∃ s, runs (TreeOk sampleTree 1) (initial fun _ => fileEvent .newFile 0 []) (sampleMove [47, 99]) = some s ∧
      s.sent.map (fun pe => pe.2.action) = [.delFile] ∧
      (replay sampleTree (s.sent.map Prod.snd)).tree = (replay sampleTree s.happened).tree := by
  obtain ⟨s, hs⟩ : ∃ s, runs (TreeOk sampleTree 1) (initial fun _ => fileEvent .newFile 0 [])
      (sampleMove [47, 99]) = some s := ⟨_, rfl⟩
  obtain rfl := Option.some.inj hs
  exact ⟨_, hs, rfl, (reachable_tree (.runs (.initial _) hs) rfl).2 rfl rfl⟩

/-- Where the rename has replaced a file, its removal is lost: what is sent deletes `/a` only, and `/b` stays. -/
theorem reachable_not_tree : ∃ s, Reachable (fun s a => s.HistoryOk sampleTree 1 a ∧ s.InTurn a) s ∧
    s.merger.events = [] ∧ s.outgoing = [] ∧ (replay sampleTree s.happened).waiting = none ∧
    (replay sampleTree s.happened).tree [47, 98] = none ∧
    (replay sampleTree (s.sent.map Prod.snd)).tree [47, 98] = some .file := by
  obtain ⟨s, hs⟩ : ∃ s, runs (fun s a => s.HistoryOk sampleTree 1 a ∧ s.InTurn a)
      (initial fun _ => fileEvent .newFile 0 []) (sampleMove [47, 98]) = some s := ⟨_, rfl⟩
  obtain rfl := Option.some.inj hs
  exact ⟨_, .runs (.initial _) hs, rfl, rfl, rfl, by decide, by decide⟩

end Monitor

end DeepinAnything.EventMerge
