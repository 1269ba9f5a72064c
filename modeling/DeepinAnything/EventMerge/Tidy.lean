import DeepinAnything.EventMerge.Log

/-!
# An event comes into a tidy log

The log of a tidy buffer leads to the tree that there is. An event that is not merged is one more edit. An event that
is merged undoes the last write of its path that can be undone; nothing behind that write concerns the path any more,
but for folders that are moved or removed above it and for a file that had been there before. Where that is excluded
(`MergesRight`) the write can be left out together with the event.
-/

namespace DeepinAnything.EventMerge

open ByteMem PathTree

theorem VfsEvent.cmpEventPath_eq_false {e e' : VfsEvent} (hdev : e.dev = e'.dev) :
    e.cmpEventPath e' = false ↔ e.path = e'.path := by
  simp [cmpEventPath, hdev]

/-- What a series of events has led to is the tree that there is, but for a rename that is not complete. -/
structure Follows (t : FileTree) (events : List VfsEvent) (w : World) : Prop where
  settled_eq : w.settled = run pathSep ⟨t, none⟩ (events.map VfsEvent.edit)
  sound : w.Sound
  waiting : ∀ e, events.getLast? = some e → e.action = .renameFromFile →
    ∃ f, w.waiting = some f ∧ f.action = .renameFromFile ∧ f.cookie = e.cookie ∧ f.path = e.path

namespace Merger

variable {s s' : Merger} {t : FileTree} {dev : ℕ} {pre : List VfsEvent} {p q : ℕ} {event : VfsEvent} {w : World}
  {front back : List ℕ}

/-- What holds of the buffer of one device, behind the events `pre` that have been handed out. -/
structure Tidy (t : FileTree) (dev : ℕ) (pre : List VfsEvent) (s : Merger) : Prop where
  regular : Regular t (pre ++ s.shown)
  linked : ∀ x ∈ s.events.tail, (s.heap x).action = .renameToFile → (s.heap x).pair ≠ none
  apart : s.events.Pairwise fun x y =>
    (s.heap x).path = (s.heap y).path → (s.heap y).Takes → ¬ (s.heap x).Undoable
  own : s.OwnCookies
  last : ∀ e, (pre ++ s.shown).getLast? = some e → e.action = .renameFromFile → s.events ≠ []
  dev_eq : ∀ x ∈ s.events, (s.heap x).dev = dev

/-- The edits that buffered events stand for. -/
def edits (s : Merger) (l : List ℕ) : List (Edit UInt8 Kind) := l.map fun x => (s.heap x).edit

theorem edits_map_view (s : Merger) (l : List ℕ) : (l.map s.view).map VfsEvent.edit = s.edits l := List.map_map

theorem edits_append (s : Merger) (l l' : List ℕ) : s.edits (l ++ l') = s.edits l ++ s.edits l' := List.map_append

/-- The log, taken apart at a buffered event. -/
theorem log_split (hsplit : s.events = front ++ q :: back) : (pre ++ s.shown).map VfsEvent.edit =
    (pre ++ front.map s.view).map VfsEvent.edit ++ (s.heap q).edit :: s.edits back := by
  simp only [shown, hsplit, List.map_append, List.map_cons, edits_map_view, edit_view, List.append_assoc]

/-- An event that is merged undoes a write behind which no folder is moved or removed above its path, and if that
write has made a file, there was none before. -/
def MergesRight (t : FileTree) (pre : List VfsEvent) (s : Merger) (event : VfsEvent) : Prop :=
  ∀ front q back, s.events = front ++ q :: back → s.Undoes event q → (∀ x ∈ back, ¬ s.Undoes event x) →
    (∀ x ∈ back, (s.heap x).OfFolder → ¬ (s.heap x).edit.Touches pathSep event.path) ∧
      ((s.heap q).Undoable →
        (run pathSep ⟨t, none⟩ ((pre ++ front.map s.view).map VfsEvent.edit)).tree event.path = none)

/-! ## Halves that come in -/

theorem shown_receive (s : Merger) (event : VfsEvent) (hp : p ∉ s.events) : (s.receive p event).shown = s.shown := by
  obtain ⟨hevents, hview, -⟩ := receive_view s event hp
  rw [shown, shown, hevents]
  exact List.map_congr_left hview

/-- The last event of the log is the last one of the buffer. -/
theorem getLast_shown (pre : List VfsEvent) (h : s.events ≠ []) :
    ∃ l q, s.events = l ++ [q] ∧ (pre ++ s.shown).getLast? = some (s.view q) := by
  obtain ⟨l, q, hq⟩ := (List.eq_nil_or_concat' s.events).resolve_left h
  refine ⟨l, q, hq, ?_⟩
  rw [shown, hq]
  simp

/-- A first half that waits for an event is the last event of all. -/
theorem Tidy.last_of_cookie (h : s.Tidy t dev pre) (hpairing : s.PairingOk event)
    (hto : event.action = .renameToFile) (hq : q ∈ s.events) (hcookie : (s.heap q).cookie = event.cookie) :
    ∃ l, s.events = l ++ [q] := by
  obtain ⟨l, l', hsplit⟩ := List.append_of_mem hq
  cases l' with
  | nil => exact ⟨l, hsplit⟩
  | cons b l' =>
    obtain ⟨hbto, hbcookie, -⟩ := (adjacent_of_split h.regular.chain hsplit).1 (hpairing hto q hq hcookie).1
    have hb : b ∈ s.events := by
      rw [hsplit]
      simp
    have hbfrom := (hpairing hto b hb (hbcookie.symm.trans hcookie)).1
    exact absurd (hbto.symm.trans hbfrom) (by decide)

/-- Where the log ends with a first half, the next event is its second half, and finds it in the buffer. -/
theorem Tidy.second_of_last (h : s.Tidy t dev pre) (hw : Follows t (pre ++ s.shown) w) (hlegal : w.Legal event)
    {e : VfsEvent} (he : (pre ++ s.shown).getLast? = some e) (hfrom : e.action = .renameFromFile) :
    event.action = .renameToFile ∧ e.cookie = event.cookie ∧ e.path ≠ event.path ∧
      ∃ q ∈ s.events, (s.heap q).cookie = event.cookie ∧ s.view q = e := by
  obtain ⟨f, hf, hffrom, hcookie, hpath⟩ := hw.waiting e he hfrom
  have hto := hlegal.fits.alone f hf hffrom
  obtain ⟨f', hf', -, hcookie', hpath'⟩ := hlegal.fits.second hto
  obtain rfl := Option.some.inj (hf.symm.trans hf')
  obtain ⟨l, q, hq, hlast⟩ := getLast_shown pre (h.last e he hfrom)
  obtain rfl := Option.some.inj (hlast.symm.trans he)
  refine ⟨hto, hcookie.symm.trans hcookie', fun heq => hpath' (hpath.trans heq), q, ?_, ?_, rfl⟩
  · rw [hq]
    simp
  · exact hcookie.symm.trans hcookie'

/-- What receiving an event changes about the buffered events: a first half gets a partner. -/
theorem receive_heap (s : Merger) (event : VfsEvent) (hp : p ∉ s.events) {x : ℕ} (hx : x ∈ s.events) :
    (s.receive p event).heap x = s.heap x ∨ event.action = .renameToFile ∧ (s.heap x).cookie = event.cookie ∧
      (s.receive p event).heap x = (s.heap x).setPair (some p) := by
  have hxp : x ≠ p := ne_of_mem_of_not_mem hx hp
  rcases receive_cases s event hp with ⟨hto, q, -, hcookie, heq⟩ | ⟨e, heq, -⟩
  · rw [heq, heap_update_of_ne _ hxp]
    by_cases hxq : x = q
    · subst hxq
      exact .inr ⟨hto, hcookie, heap_update_self _ _ _⟩
    · exact .inl (heap_update_of_ne _ hxq _)
  · rw [heq]
    exact .inl (heap_update_of_ne _ hxp _)

/-- A buffered event is what it was when another one has been received. -/
structure Alike (e e' : VfsEvent) : Prop where
  action_eq : e'.action = e.action
  path_eq : e'.path = e.path
  cookie_eq : e'.cookie = e.cookie
  dev_eq : e'.dev = e.dev
  undoable : e'.Undoable → e.Undoable
  pair_ne : e.pair ≠ none → e'.pair ≠ none

theorem alike_receive (hpairing : s.PairingOk event) (hp : p ∉ s.events) {x : ℕ} (hx : x ∈ s.events) :
    Alike (s.heap x) ((s.receive p event).heap x) := by
  rcases receive_heap s event hp hx with heq | ⟨hto, hcookie, heq⟩
  · rw [heq]
    exact ⟨rfl, rfl, rfl, rfl, id, id⟩
  · rw [heq]
    refine ⟨rfl, rfl, rfl, rfl, fun hu => ?_, fun _ => by simp⟩
    -- it is a first half, which nothing undoes
    have hfrom := (hpairing hto x hx hcookie).1
    rcases hu with hu | ⟨hu, -⟩
    · rw [VfsEvent.action_setPair, hfrom] at hu
      cases hu
    · rw [VfsEvent.action_setPair, hfrom] at hu
      cases hu

/-- The events of a tidy buffer stay tidy beside each other, whatever their pairs become. -/
theorem Tidy.apart_receive (h : s.Tidy t dev pre) (hpairing : s.PairingOk event) (hp : p ∉ s.events) :
    s.events.Pairwise fun x y => ((s.receive p event).heap x).path = ((s.receive p event).heap y).path →
      ((s.receive p event).heap y).Takes → ¬ ((s.receive p event).heap x).Undoable := by
  refine h.apart.imp_of_mem fun {x y} hx hy hxy hpath htakes hundo => ?_
  have hkx := alike_receive hpairing hp hx
  have hky := alike_receive hpairing hp hy
  rw [hkx.path_eq, hky.path_eq] at hpath
  rw [VfsEvent.Takes, hky.action_eq] at htakes
  exact hxy hpath htakes (hkx.undoable hundo)

/-! ## An event that is not merged -/

/-- What is known when an event comes in. -/
structure Comes (t : FileTree) (dev : ℕ) (pre : List VfsEvent) (s : Merger) (w : World) (p : ℕ) (event : VfsEvent) :
    Prop where
  sound : s.Sound
  tidy : s.Tidy t dev pre
  follows : Follows t (pre ++ s.shown) w
  fresh : p ∉ s.events
  pairing : s.PairingOk event
  legal : w.Legal event
  dev_eq : event.dev = dev
  own : event.action = .renameFromFile → ∀ x ∈ s.events, (s.heap x).action = .renameFromFile →
    (s.heap x).cookie ≠ event.cookie

/-- The action of an event that has been received is its own, or that of a new file in place of a second half. -/
theorem receive_action (s : Merger) (event : VfsEvent) (hp : p ∉ s.events) :
    ((s.receive p event).heap p).action = event.action ∧ (event.action = .renameToFile →
        ((s.receive p event).heap p).cookie = event.cookie ∧ ∃ q ∈ s.events, (s.heap q).cookie = event.cookie ∧
        ((s.receive p event).heap p).pair = some q) ∨
      event.action = .renameToFile ∧ (∀ q ∈ s.events, (s.heap q).cookie ≠ event.cookie) ∧
        ((s.receive p event).heap p).action = .newFile := by
  rcases receive_cases s event hp with ⟨hto, q, hq, hcookie, heq⟩ | ⟨e, heq, -, ⟨hto, rfl⟩ | ⟨hto, hnone, rfl⟩⟩
  · rw [heq, heap_update_self]
    exact .inl ⟨rfl, fun _ => ⟨rfl, q, hq, hcookie, rfl⟩⟩
  · rw [heq, heap_update_self]
    exact .inl ⟨rfl, fun hto' => absurd hto' hto⟩
  · rw [heq, heap_update_self]
    exact .inr ⟨hto, hnone, rfl⟩

namespace Comes

variable {m : Merger}

/-- The log goes on regularly. -/
theorem regular_concat (h : Comes t dev pre s w p event) :
    Regular t (pre ++ s.shown ++ [(s.receive p event).view p]) := by
  obtain ⟨-, -, hedit, hpath, -⟩ := receive_view s event h.fresh
  have haction := receive_action s event h.fresh
  have hlastTo : ((s.receive p event).heap p).action = .renameToFile → ∃ l q, s.events = l ++ [q] ∧
      (s.heap q).action = .renameFromFile := fun hto => by
    rcases haction with ⟨hact, hpair⟩ | ⟨-, -, hnew⟩
    · obtain ⟨-, q, hq, hcookie, -⟩ := hpair (hact ▸ hto)
      obtain ⟨l, hl⟩ := h.tidy.last_of_cookie h.pairing (hact ▸ hto) hq hcookie
      exact ⟨l, q, hl, (h.pairing (hact ▸ hto) q hq hcookie).1⟩
    · rw [hnew] at hto
      cases hto
  refine ⟨List.isChain_append.mpr ⟨h.tidy.regular.chain, .singleton _, fun x hx y hy => ?_⟩, fun e he => ?_, ?_⟩
  · obtain rfl : (s.receive p event).view p = y := by simpa using hy
    refine ⟨fun hfrom => ?_, fun hto => ?_⟩
    · obtain ⟨hto, hcookie, hne, q, hq, hqcookie, -⟩ := h.tidy.second_of_last h.follows h.legal hx hfrom
      rcases haction with ⟨hact, hpair⟩ | ⟨-, hnone, -⟩
      · exact ⟨hact.trans hto, hcookie.trans (hpair hto).1.symm, fun heq => hne (heq.trans hpath)⟩
      · exact absurd hqcookie (hnone q hq)
    · obtain ⟨l, q, hl, hfrom⟩ := hlastTo hto
      have hlast : (pre ++ s.shown).getLast? = some (s.view q) := by
        rw [shown, hl]
        simp
      obtain rfl := Option.some.inj (hlast.symm.trans hx)
      exact hfrom
  · rw [List.head?_append, Option.or_eq_some_iff] at he
    rcases he with he | ⟨hnil, he⟩
    · exact h.tidy.regular.head e he
    · obtain rfl : (s.receive p event).view p = e := by simpa using he
      intro hto
      obtain ⟨l, q, hl, -⟩ := hlastTo hto
      rw [List.head?_eq_none_iff, List.append_eq_nil_iff, shown, hl] at hnil
      simp at hnil
  · rw [List.map_append, lawful_append, ← h.follows.settled_eq]
    refine ⟨h.tidy.regular.lawful, ?_, trivial⟩
    rw [edit_view, hedit]
    exact h.legal.allowed

theorem shown_appended (h : Comes t dev pre s w p event) (hheap : m.heap = (s.receive p event).heap)
    (hevents : m.events = s.events ++ [p]) : pre ++ m.shown = pre ++ s.shown ++ [(s.receive p event).view p] := by
  have hview : m.view = (s.receive p event).view := funext fun x => congrArg (VfsEvent.setPair none) (congrFun hheap x)
  have hshown := shown_receive s event h.fresh
  rw [shown, (receive_view s event h.fresh).1] at hshown
  rw [shown, hevents, hview, List.map_append, hshown, ← List.append_assoc]
  rfl

/-- The tree that the log leads to is the one in which the event has happened. -/
theorem follows_appended (h : Comes t dev pre s w p event) (hheap : m.heap = (s.receive p event).heap)
    (hevents : m.events = s.events ++ [p]) : Follows t (pre ++ m.shown) (w.apply event) := by
  obtain ⟨-, -, hedit, hpath, -⟩ := receive_view s event h.fresh
  rw [h.shown_appended hheap hevents]
  refine ⟨?_, h.legal.fits.sound, fun e he hfrom => ?_⟩
  · have hmap : (pre ++ s.shown ++ [(s.receive p event).view p]).map VfsEvent.edit =
        (pre ++ s.shown).map VfsEvent.edit ++ [event.edit] := by
      rw [List.map_append, List.map_singleton, edit_view, hedit]
    rw [World.settled_apply h.follows.sound h.legal.fits, h.follows.settled_eq, hmap, run_concat]
  · obtain rfl : (s.receive p event).view p = e := by simpa using he
    rcases receive_action s event h.fresh with ⟨hact, -⟩ | ⟨-, -, hnew⟩
    · have hfrom' : event.action = .renameFromFile := hact ▸ hfrom
      refine ⟨event, by rw [World.apply, hfrom'], hfrom', ?_, hpath.symm⟩
      rcases receive_cases s event h.fresh with ⟨hto, -⟩ | ⟨e, heq, -, ⟨-, rfl⟩ | ⟨hto, -⟩⟩
      · exact absurd (hfrom'.symm.trans hto) (by decide)
      · rw [cookie_view, heq, heap_update_self]
        rfl
      · exact absurd (hfrom'.symm.trans hto) (by decide)
    · exact absurd (hnew.symm.trans hfrom) (by decide)

/-- An event that undoes nothing leaves the buffer tidy. -/
theorem tidy_appended (h : Comes t dev pre s w p event) (hheap : m.heap = (s.receive p event).heap)
    (hevents : m.events = s.events ++ [p]) (hnone : ∀ x ∈ s.events, ¬ s.Undoes event x) : m.Tidy t dev pre := by
  have halike : ∀ x ∈ s.events, Alike (s.heap x) ((s.receive p event).heap x) := fun x hx =>
    alike_receive h.pairing h.fresh hx
  have haction := receive_action s event h.fresh
  obtain ⟨-, -, -, hpath, hdev⟩ := receive_view s event h.fresh
  refine ⟨h.shown_appended hheap hevents ▸ h.regular_concat, fun x hx hto => ?_, ?_, ?_, fun _ _ _ => ?_, ?_⟩
  · rw [hheap] at hto ⊢
    rw [hevents] at hx
    rcases eq_or_ne s.events [] with hnil | hne
    · rw [hnil] at hx
      cases hx
    rw [List.tail_append_of_ne_nil hne, List.mem_append] at hx
    rcases hx with hx | hx
    · have hx' := halike x (List.mem_of_mem_tail hx)
      exact hx'.pair_ne (h.tidy.linked x hx (hx'.action_eq ▸ hto))
    · obtain rfl := List.mem_singleton.mp hx
      rcases haction with ⟨hact, hpair⟩ | ⟨-, -, hnew⟩
      · obtain ⟨-, q, -, -, hq⟩ := hpair (hact ▸ hto)
        simp [hq]
      · exact absurd (hnew.symm.trans hto) (by decide)
  · rw [hevents, hheap]
    refine List.pairwise_append.mpr ⟨h.tidy.apart_receive h.pairing h.fresh, List.pairwise_singleton _ _, ?_⟩
    intro x hx y hy hsame htakes hundo
    obtain rfl := List.mem_singleton.mp hy
    have hx' := halike x hx
    -- the event would have undone the one at `x`
    have hact : event.Takes := by
      rcases haction with ⟨hact, -⟩ | ⟨-, -, hnew⟩
      · rwa [VfsEvent.Takes, hact] at htakes
      · simp [VfsEvent.Takes, hnew] at htakes
    have hcmp : (s.heap x).cmpEventPath event = false :=
      (VfsEvent.cmpEventPath_eq_false ((h.tidy.dev_eq x hx).trans h.dev_eq.symm)).mpr
        (hx'.path_eq.symm.trans (hsame.trans hpath))
    refine hnone x hx ⟨hcmp, ?_⟩
    rcases hact with hact | hact <;> rw [hact] <;> exact hx'.undoable hundo
  · intro x hx y hy hxfrom hyfrom hcookie
    rw [hevents, List.mem_append, List.mem_singleton] at hx hy
    rw [hheap] at hxfrom hyfrom hcookie
    have hfirst : ((s.receive p event).heap p).action = .renameFromFile →
        event.action = .renameFromFile ∧ ((s.receive p event).heap p).cookie = event.cookie := fun hfrom => by
      rcases receive_cases s event h.fresh with ⟨hto, q, -, -, heq⟩ | ⟨e, heq, -, ⟨-, rfl⟩ | ⟨-, -, rfl⟩⟩
      · rw [heq, heap_update_self] at hfrom
        exact absurd (hto.symm.trans hfrom) (by decide)
      · rw [heq, heap_update_self] at hfrom ⊢
        exact ⟨hfrom, rfl⟩
      · rw [heq, heap_update_self] at hfrom
        cases hfrom
    rcases hx with hx | rfl <;> rcases hy with hy | rfl
    · rw [(halike x hx).action_eq] at hxfrom
      rw [(halike y hy).action_eq] at hyfrom
      rw [(halike x hx).cookie_eq, (halike y hy).cookie_eq] at hcookie
      exact h.tidy.own x hx y hy hxfrom hyfrom hcookie
    · obtain ⟨hfrom, hown⟩ := hfirst hyfrom
      rw [(halike x hx).action_eq] at hxfrom
      rw [(halike x hx).cookie_eq, hown] at hcookie
      exact absurd hcookie (h.own hfrom x hx hxfrom)
    · obtain ⟨hfrom, hown⟩ := hfirst hxfrom
      rw [(halike y hy).action_eq] at hyfrom
      rw [(halike y hy).cookie_eq, hown] at hcookie
      exact absurd hcookie.symm (h.own hfrom y hy hyfrom)
    · rfl
  · rw [hevents]
    simp
  · intro x hx
    rw [hevents] at hx
    rw [hheap]
    rcases List.mem_append.mp hx with hx | hx
    · exact (halike x hx).dev_eq.trans (h.tidy.dev_eq x hx)
    · obtain rfl := List.mem_singleton.mp hx
      exact hdev.trans h.dev_eq

/-! ## An event that is merged -/

/-- A merge leaves no open half at the end of the log. -/
theorem shortened (h : Comes t dev pre s w p event) (hsplit : s.events = front ++ q :: back)
    (hmerged : (s.receive p event).Merged ((s.receive p event).heap p) q s') :
    (s.receive p event).Shortened s' front back pre := by
  have hshown := shown_receive s event h.fresh
  have hevents := (receive_view s event h.fresh).1
  have hregular := h.tidy.regular
  rw [← hshown] at hregular
  rw [← hevents] at hsplit
  have halike : ∀ x ∈ s.events, Alike (s.heap x) ((s.receive p event).heap x) := fun x hx =>
    alike_receive h.pairing h.fresh hx
  rcases receive_cases s event h.fresh with ⟨hto, y, hy, hcookie, heq⟩ | ⟨e, heq, hpair, he⟩
  · obtain ⟨l, hl⟩ := h.tidy.last_of_cookie h.pairing hto hy hcookie
    refine hmerged.shortened_paired (y := y) ?_ ?_ (hevents ▸ h.sound.nodup) hregular.chain hregular.head
      (hevents.trans hl) ?_ hsplit
    · rw [heq, heap_update_self]
      exact hto
    · rw [heq, heap_update_self]
      rfl
    · rw [(halike y hy).action_eq]
      exact (h.pairing hto y hy hcookie).1
  · refine hmerged.shortened ?_ ?_ ?_ ?_ hregular.chain hregular.head (fun z hz hfrom => ?_) hsplit
    · rw [heq, heap_update_self]
      exact hpair
    · rw [heq]
      exact h.sound.update_loose (.inl h.fresh)
    · intro x hx y hy hxfrom hyfrom hc
      rw [hevents] at hx hy
      rw [(halike x hx).action_eq] at hxfrom
      rw [(halike y hy).action_eq] at hyfrom
      rw [(halike x hx).cookie_eq, (halike y hy).cookie_eq] at hc
      exact h.tidy.own x hx y hy hxfrom hyfrom hc
    · intro x hx hto
      rw [hevents] at hx
      have hx' := halike x (List.mem_of_mem_tail hx)
      exact hx'.pair_ne (h.tidy.linked x hx (hx'.action_eq ▸ hto))
    · rw [hshown] at hz
      obtain ⟨hto, -, -, x, hx, hcookie, -⟩ := h.tidy.second_of_last h.follows h.legal hz hfrom
      rcases he with ⟨hnot, -⟩ | ⟨-, hnone, -⟩
      · exact hnot hto
      · exact hnone x hx hcookie

/-- What is behind an event of the buffer, and touches a path, is about a file there: it takes it away, or has made it
in a way that can be undone. -/
theorem of_touches (h : Comes t dev pre s w p event) (hsplit : s.events = front ++ q :: back) {x : ℕ} (hx : x ∈ back)
    (hfolder : ¬ (s.heap x).OfFolder) {path : Bytes} (htouches : (s.heap x).edit.Touches pathSep path) :
    (s.heap x).path = path ∧ ((s.heap x).Takes ∨ (s.heap x).Undoable) := by
  obtain ⟨hpath, hcases⟩ := VfsEvent.edit_of_touches hfolder htouches
  refine ⟨hpath, hcases.imp_right fun hmakes => hmakes.imp_right fun hto => ⟨hto, h.tidy.linked x ?_ hto⟩⟩
  rw [hsplit]
  cases front with
  | nil => exact hx
  | cons y front => exact List.mem_append_right _ (List.mem_cons_of_mem _ hx)

/-- What an event undoes: one that has made a file, or one that has taken it away. -/
theorem undoes_cases (h : s.Undoes event q) :
    event.Takes ∧ (s.heap q).Undoable ∨ event.edit = .write event.path (some .file) ∧ (s.heap q).Takes := by
  obtain ⟨-, h⟩ := h
  rw [VfsEvent.edit]
  cases hact : event.action <;> rw [hact] at h
  case delFile => exact .inl ⟨.inl hact, h⟩
  case renameFromFile => exact .inl ⟨.inr hact, h⟩
  case renameToFile => exact .inr ⟨rfl, h.elim .inl And.left⟩
  all_goals first | exact .inr ⟨rfl, h⟩ | exact h.elim

/-- An event that is undone is about the path of the incoming event. -/
theorem path_of_undoes (h : Comes t dev pre s w p event) (hq : q ∈ s.events) (hundoes : s.Undoes event q) :
    (s.heap q).path = event.path :=
  (VfsEvent.cmpEventPath_eq_false ((h.tidy.dev_eq q hq).trans h.dev_eq.symm)).mp hundoes.1

/-- What could have been undone by an event that takes a file away has been made at another path. -/
theorem not_undoable (h : Comes t dev pre s w p event) (hevent : event.Takes) {x : ℕ} (hx : x ∈ s.events)
    (hpath : (s.heap x).path = event.path) (hnot : ¬ s.Undoes event x) : ¬ (s.heap x).Undoable := fun hundo => by
  refine hnot ⟨(VfsEvent.cmpEventPath_eq_false ((h.tidy.dev_eq x hx).trans h.dev_eq.symm)).mpr hpath, ?_⟩
  rcases hevent with hact | hact <;> rw [hact] <;> exact hundo

/-- Where a file has been taken away there is none, as long as what touches the path takes files away. -/
theorem tree_of_gone {st : State UInt8 Kind} {path : Bytes} (log : List (Edit UInt8 Kind))
    (hallowed : Allowed st (.write path none)) (hlog : ∀ e ∈ log, ¬ e.Touches pathSep path ∨ e = .write path none) :
    (run pathSep st (.write path none :: log)).tree path = none := by
  rw [run_cons]
  exact tree_run (.of_none hallowed.1) (Function.update_self _ _ _) hlog

/-- Behind an event that is undone, no file is taken away at its path. -/
theorem not_takes (h : Comes t dev pre s w p event) (hsplit : s.events = front ++ q :: back)
    (hq : s.Undoes event q) (hlast : ∀ x ∈ back, ¬ s.Undoes event x)
    (hfolder : ∀ x ∈ back, (s.heap x).OfFolder → ¬ (s.heap x).edit.Touches pathSep event.path) {x : ℕ} (hx : x ∈ back)
    (hpath : (s.heap x).path = event.path) : ¬ (s.heap x).Takes := fun htakes => by
  have hmem : ∀ y ∈ q :: back, y ∈ s.events := fun y hy => by
    rw [hsplit]
    exact List.mem_append_right _ hy
  -- an event between them that touches the path takes a file away too, unless it could be undone
  have hgone : ∀ y ∈ back, ((s.heap y).path = event.path → ¬ (s.heap y).Undoable) →
      ¬ (s.heap y).edit.Touches pathSep event.path ∨ (s.heap y).edit = .write event.path none := fun y hy hnot => by
    by_cases hty : (s.heap y).edit.Touches pathSep event.path
    · obtain ⟨hpath, hcases⟩ := h.of_touches hsplit hy (fun hf => hfolder y hy hf hty) hty
      right
      rw [(hcases.resolve_right (hnot hpath)).edit_eq, hpath]
    · exact .inl hty
  obtain ⟨back₁, back₂, rfl⟩ := List.append_of_mem hx
  have hlawful := h.tidy.regular.lawful
  have hsettled := h.follows.settled_eq
  have hlog : (s.heap q).edit :: s.edits (back₁ ++ x :: back₂) =
      ((s.heap q).edit :: s.edits back₁) ++ .write event.path none :: s.edits back₂ := by
    rw [edits, List.map_append, List.map_cons, htakes.edit_eq, hpath]
    rfl
  rw [log_split hsplit, hlog, lawful_append] at hlawful
  rw [log_split hsplit, hlog, run_append] at hsettled
  generalize run pathSep ⟨t, none⟩ ((pre ++ front.map s.view).map VfsEvent.edit) = st at hlawful hsettled
  obtain ⟨-, hlawful⟩ := hlawful
  rw [lawful_append] at hlawful
  rw [run_append] at hsettled
  rcases undoes_cases hq with ⟨hevent, -⟩ | ⟨-, hqtakes⟩
  · -- it is gone when the event comes in, which takes it away
    have hnone := tree_of_gone (s.edits back₂) hlawful.2.1 fun e he => by
      obtain ⟨y, hy, rfl⟩ := List.mem_map.mp he
      have hy' : y ∈ back₁ ++ x :: back₂ := List.mem_append_right _ (List.mem_cons_of_mem _ hy)
      exact hgone y hy' fun hpath' => h.not_undoable hevent (hmem y (List.mem_cons_of_mem _ hy')) hpath' (hlast y hy')
    rw [← hsettled] at hnone
    have hlegal := h.legal.allowed
    rw [hevent.edit_eq] at hlegal
    rw [hlegal.2 rfl] at hnone
    cases hnone
  · -- it is gone behind the event that is undone
    rw [hqtakes.edit_eq, h.path_of_undoes (hmem q List.mem_cons_self) hq] at hlawful
    have hnone := tree_of_gone (s.edits back₁) hlawful.1.1 fun e he => by
      obtain ⟨y, hy, rfl⟩ := List.mem_map.mp he
      refine hgone y (List.mem_append_left _ hy) fun hpath' => ?_
      have hapart := h.tidy.apart
      rw [hsplit] at hapart
      have hpair := (List.pairwise_cons.mp (List.pairwise_append.mp hapart).2.1).2
      exact (List.pairwise_append.mp hpair).2.2 y hy x List.mem_cons_self (hpath'.trans hpath.symm) htakes
    rw [hlawful.2.1.2 rfl] at hnone
    cases hnone

/-- Behind an event that is undone, the path is only written with what the incoming event writes there. -/
theorem only_restores (h : Comes t dev pre s w p event) (hsplit : s.events = front ++ q :: back)
    (hq : s.Undoes event q) (hlast : ∀ x ∈ back, ¬ s.Undoes event x)
    (hfolder : ∀ x ∈ back, (s.heap x).OfFolder → ¬ (s.heap x).edit.Touches pathSep event.path) {x : ℕ} (hx : x ∈ back)
    (htouches : (s.heap x).edit.Touches pathSep event.path) :
    event.edit = .write event.path (some .file) ∧ (s.heap x).edit = .write event.path (some .file) := by
  have hmem : x ∈ s.events := by
    rw [hsplit]
    exact List.mem_append_right _ (List.mem_cons_of_mem _ hx)
  obtain ⟨hpath, hcases⟩ := h.of_touches hsplit hx (fun hf => hfolder x hx hf htouches) htouches
  have hundo := hcases.resolve_left (h.not_takes hsplit hq hlast hfolder hx hpath)
  rcases undoes_cases hq with ⟨hevent, -⟩ | ⟨hedit, -⟩
  · exact absurd hundo (h.not_undoable hevent hmem hpath (hlast x hx))
  · exact ⟨hedit, by rw [hundo.edit_eq, hpath]⟩

/-- What an event and the event that it undoes write at their path: the one restores what the other has changed. -/
theorem restores (h : Comes t dev pre s w p event) (hright : s.MergesRight t pre event)
    (hsplit : s.events = front ++ q :: back) (hq : s.Undoes event q) (hlast : ∀ x ∈ back, ¬ s.Undoes event x) :
    ∃ v b, (s.heap q).edit = .write event.path v ∧ event.edit = .write event.path b ∧
      (run pathSep ⟨t, none⟩ ((pre ++ front.map s.view).map VfsEvent.edit)).tree event.path = b ∧
      ∀ e ∈ s.edits back, ¬ e.Touches pathSep event.path ∨ e = .write event.path b ∧ b ≠ none := by
  obtain ⟨hfolder, hfirst⟩ := hright front q back hsplit hq hlast
  have hpath : (s.heap q).path = event.path := h.path_of_undoes (by rw [hsplit]; simp) hq
  have hrest : ∀ e ∈ s.edits back, ¬ e.Touches pathSep event.path ∨
      event.edit = .write event.path (some .file) ∧ e = .write event.path (some .file) := fun e he => by
    obtain ⟨x, hx, rfl⟩ := List.mem_map.mp he
    by_cases htouches : (s.heap x).edit.Touches pathSep event.path
    · exact .inr (h.only_restores hsplit hq hlast hfolder hx htouches)
    · exact .inl htouches
  rcases undoes_cases hq with ⟨hevent, hundo⟩ | ⟨hedit, htakes⟩
  · refine ⟨some .file, none, by rw [hundo.edit_eq, hpath], hevent.edit_eq, hfirst hundo, fun e he => .inl ?_⟩
    refine (hrest e he).resolve_right fun hboth => ?_
    rw [hevent.edit_eq] at hboth
    cases hboth.1
  · refine ⟨none, some .file, by rw [htakes.edit_eq, hpath], hedit, ?_, fun e he =>
      (hrest e he).imp_right fun hboth => ⟨hboth.2, by simp⟩⟩
    -- what is taken away has been there
    have hlawful := h.tidy.regular.lawful
    rw [log_split hsplit, lawful_append, htakes.edit_eq, hpath] at hlawful
    exact hlawful.2.1.2 rfl

/-- The edits of the log from which two events have been left out. -/
theorem edits_shortened (h : Comes t dev pre s w p event)
    (hshort : (s.receive p event).Shortened s' front back pre) (hsplit : s.events = front ++ q :: back) :
    s'.shown.map VfsEvent.edit = s.edits front ++ s.edits back := by
  rw [shown, edits_map_view, hshort.events_eq, ← edits_append]
  refine List.map_congr_left fun x hx => ?_
  have hx' : x ∈ s.events := by
    rw [hsplit]
    exact ((List.sublist_cons_self q back).append_left front).subset hx
  rw [(hshort.rewritten x (hshort.events_eq ▸ hx)).edit_eq]
  rcases receive_heap s event h.fresh hx' with heq | ⟨-, -, heq⟩
  · rw [heq]
  · rw [heq, VfsEvent.edit_setPair]

/-- An event that is merged leaves the log right. -/
theorem merged (h : Comes t dev pre s w p event) (hright : s.MergesRight t pre event)
    (hsplit : s.events = front ++ q :: back) (hq : s.Undoes event q) (hlast : ∀ x ∈ back, ¬ s.Undoes event x)
    (hshort : (s.receive p event).Shortened s' front back pre) :
    s'.Tidy t dev pre ∧ Follows t (pre ++ s'.shown) (w.apply event) := by
  obtain ⟨v, b, hqedit, hedit, hb, hrest⟩ := h.restores hright hsplit hq hlast
  have hlawful := h.tidy.regular.lawful
  have hsettled := h.follows.settled_eq
  have hlog' : (pre ++ s'.shown).map VfsEvent.edit =
      (pre ++ front.map s.view).map VfsEvent.edit ++ s.edits back := by
    rw [List.map_append, h.edits_shortened hshort hsplit, List.map_append, edits_map_view, List.append_assoc]
  rw [log_split hsplit, hqedit, lawful_append] at hlawful
  rw [log_split hsplit, hqedit, run_append, run_cons] at hsettled
  have halike : ∀ x ∈ s'.events, x ∈ s.events ∧ Alike (s.heap x) ((s.receive p event).heap x) := fun x hx => by
    have hx' : x ∈ s.events := by
      rw [hsplit]
      exact ((List.sublist_cons_self q back).append_left front).subset (hshort.events_eq ▸ hx)
    exact ⟨hx', alike_receive h.pairing h.fresh hx'⟩
  refine ⟨⟨⟨hshort.closed.chain, hshort.closed.head, ?_⟩, fun x hx hto => ?_, ?_, ?_,
    fun e he hfrom => absurd hfrom (hshort.closed.last e he), fun x hx => ?_⟩,
    ⟨?_, h.legal.fits.sound, fun e he hfrom => absurd hfrom (hshort.closed.last e he)⟩⟩
  · rw [hlog', lawful_append]
    exact ⟨hlawful.1, lawful_cancel hlawful.2 hrest⟩
  · have hmem := List.mem_of_mem_tail hx
    have heq := (hshort.rewritten x hmem).eq_of_to hto
    rw [heq] at hto ⊢
    obtain ⟨-, hx'⟩ := halike x hmem
    refine hx'.pair_ne (h.tidy.linked x ?_ (hx'.action_eq ▸ hto))
    rw [hshort.events_eq] at hx
    rw [hsplit]
    cases front with
    | nil => exact List.mem_of_mem_tail hx
    | cons y front => exact ((List.sublist_cons_self q back).append_left front).subset hx
  · have hapart := h.tidy.apart_receive h.pairing h.fresh
    have hsub : s'.events.Sublist s.events := by
      rw [hshort.events_eq, hsplit]
      exact (List.sublist_cons_self q back).append_left front
    refine (hapart.sublist hsub).imp_of_mem fun {x y} hx hy hxy hpath htakes hundo => ?_
    have hx' := hshort.rewritten x hx
    have hy' := hshort.rewritten y hy
    rw [hx'.path_eq, hy'.path_eq] at hpath
    exact hxy hpath (hy'.takes htakes) (hx'.undoable hundo)
  · intro x hx y hy hxfrom hyfrom hcookie
    have hxeq := (hshort.rewritten x hx).eq_of_from hxfrom
    have hyeq := (hshort.rewritten y hy).eq_of_from hyfrom
    rw [hxeq] at hxfrom hcookie
    rw [hyeq] at hyfrom hcookie
    obtain ⟨hx', hxalike⟩ := halike x hx
    obtain ⟨hy', hyalike⟩ := halike y hy
    rw [hxalike.action_eq] at hxfrom
    rw [hyalike.action_eq] at hyfrom
    rw [hxalike.cookie_eq, hyalike.cookie_eq] at hcookie
    exact h.tidy.own x hx' y hy' hxfrom hyfrom hcookie
  · obtain ⟨hx', hxalike⟩ := halike x hx
    rw [(hshort.rewritten x hx).dev_eq, hxalike.dev_eq, h.tidy.dev_eq x hx']
  · rw [World.settled_apply h.follows.sound h.legal.fits, hsettled, hlog', run_append, hedit]
    exact run_cancel hlawful.2.1.1 hb fun e he => (hrest e he).imp_right And.left

/-- An event that comes in leaves the log tidy and right. -/
theorem absorb (h : Comes t dev pre s w p event) (hright : s.MergesRight t pre event) :
    ((s.receive p event).absorb p).Tidy t dev pre ∧
      Follows t (pre ++ ((s.receive p event).absorb p).shown) (w.apply event) := by
  rcases absorb_undoes s event h.fresh with ⟨hnone, heq⟩ | ⟨front, q, back, s', hsplit, hq, hlast, hmerged, heq⟩
  · rw [heq]
    exact ⟨h.tidy_appended rfl rfl hnone, h.follows_appended rfl rfl⟩
  · rw [heq]
    obtain ⟨htidy, hfollows⟩ := h.merged hright hsplit hq hlast (h.shortened hsplit hmerged)
    exact ⟨⟨htidy.regular, htidy.linked, htidy.apart, htidy.own, htidy.last, htidy.dev_eq⟩, hfollows⟩

end Comes

end Merger

end DeepinAnything.EventMerge
