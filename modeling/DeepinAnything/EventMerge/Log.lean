import DeepinAnything.EventMerge.History
import DeepinAnything.EventMerge.Pick

/-!
# The buffer as a log of edits

What has been handed out and what is buffered are the log of what happened, shortened by merging. A merge takes
one write of a path out of the log and leaves out the write that comes in; the event that it rewrites stands for
the same edit as before. `Tidy` says what holds of the log: it is regular, the halves of a rename that are both in
the buffer know each other, and no buffered event could have undone one before it.
-/

namespace DeepinAnything.EventMerge

open ByteMem PathTree

/-! ## What an event does to a file -/

namespace VfsEvent

/-- The event takes a file away. -/
def Takes (e : VfsEvent) : Prop := e.action = .delFile ∨ e.action = .renameFromFile

/-- The event has brought a file into being, in a way that can be undone: the second half of a rename whose first
half has left the buffer cannot. -/
def Undoable (e : VfsEvent) : Prop := e.action.isNew = true ∨ e.action = .renameToFile ∧ e.pair ≠ none

/-- The event is about a folder. -/
def OfFolder (e : VfsEvent) : Prop :=
  e.action = .newFolder ∨ e.action = .delFolder ∨ e.action = .renameFromFolder ∨ e.action = .renameToFolder

instance (e : VfsEvent) : Decidable e.Takes := inferInstanceAs (Decidable (_ ∨ _))

instance (e : VfsEvent) : Decidable e.Undoable := inferInstanceAs (Decidable (_ ∨ _ ∧ _))

instance (e : VfsEvent) : Decidable e.OfFolder := inferInstanceAs (Decidable (_ ∨ _ ∨ _ ∨ _))

variable {e : VfsEvent}

theorem Takes.edit_eq (h : e.Takes) : e.edit = .write e.path none := by
  rcases h with h | h <;> rw [edit, h]

theorem edit_of_isNew (h : e.action.isNew = true) : e.edit = .write e.path (some .file) := by
  rw [edit]
  cases hact : e.action <;> rw [hact] at h <;> first | rfl | cases h

theorem edit_of_renameTo (h : e.action = .renameToFile) : e.edit = .write e.path (some .file) := by
  rw [edit, h]

theorem Undoable.edit_eq (h : e.Undoable) : e.edit = .write e.path (some .file) := by
  rcases h with h | h
  · exact edit_of_isNew h
  · exact edit_of_renameTo h.1

/-- An event that touches a path, and is not about a folder, is about a file there. -/
theorem edit_of_touches {x : Bytes} (hfolder : ¬ e.OfFolder) (h : e.edit.Touches pathSep x) :
    e.path = x ∧ (e.Takes ∨ e.action.isNew = true ∨ e.action = .renameToFile) := by
  rw [edit] at h
  rw [OfFolder] at hfolder
  rw [Takes]
  cases hact : e.action <;> rw [hact] at h hfolder <;> simp [Action.isNew, Action.code] at hfolder ⊢ <;> exact h

end VfsEvent

/-! ## Which event is undone -/

namespace Merger

variable {s s' : Merger} {p : ℕ} {event : VfsEvent}

theorem mergeNewFile_isSome {cur : VfsEvent} : (s.mergeNewFile p cur).isSome ↔
    (s.heap p).cmpEventPath cur = false ∧ (s.heap p).Takes := by
  unfold mergeNewFile VfsEvent.Takes
  simp only
  by_cases hpath : (s.heap p).cmpEventPath cur = true <;> by_cases hdel : (s.heap p).action = .delFile <;>
    by_cases hfrom : (s.heap p).action = .renameFromFile <;> simp [hpath, hdel, hfrom]

theorem mergeGone_isSome {cur : VfsEvent} : (s.mergeGone p cur).isSome ↔
    (s.heap p).cmpEventPath cur = false ∧ (s.heap p).Undoable := by
  have hnot : Action.renameToFile.isNew = false := rfl
  unfold mergeGone VfsEvent.Undoable
  simp only
  by_cases hpath : (s.heap p).cmpEventPath cur = true <;> by_cases hnew : (s.heap p).action.isNew = true <;>
    by_cases hto : (s.heap p).action = .renameToFile <;> by_cases hpair : (s.heap p).pair = none <;>
    simp [hpath, hnew, hto, hpair, hnot]

theorem mergeRenameToFile_isSome {cur : VfsEvent} : (s.mergeRenameToFile p cur).isSome ↔
    (s.heap p).cmpEventPath cur = false ∧ (s.heap p).action = .delFile ∧ cur.pair ≠ none := by
  unfold mergeRenameToFile
  simp only
  by_cases hpath : (s.heap p).cmpEventPath cur = true <;> by_cases hdel : (s.heap p).action = .delFile <;>
    by_cases hpair : cur.pair = none <;> simp [hpath, hdel, hpair]

/-- The incoming event is merged with the buffered event at `q` if it comes upon it: they are about one path, and
the one undoes the other. The second half of a rename whose first half has been merged counts as a new file. -/
def Undoes (s : Merger) (event : VfsEvent) (q : ℕ) : Prop :=
  (s.heap q).cmpEventPath event = false ∧
    match event.action with
    | .newFile | .newLink | .newSymlink => (s.heap q).Takes
    | .renameToFile => (s.heap q).action = .delFile ∨
        (s.heap q).Takes ∧ ∀ x ∈ s.events, (s.heap x).cookie ≠ event.cookie
    | .delFile | .renameFromFile => (s.heap q).Undoable
    | _ => False

instance (s : Merger) (event : VfsEvent) (q : ℕ) : Decidable (s.Undoes event q) := by
  unfold Undoes
  obtain ⟨action, cookie, dev, path, pair⟩ := event
  cases action <;> infer_instance

/-- An event without its pair. -/
def view (s : Merger) (p : ℕ) : VfsEvent := (s.heap p).setPair none

/-- The events of the buffer. -/
def shown (s : Merger) : List VfsEvent := s.events.map s.view

@[simp] theorem action_view (s : Merger) (p : ℕ) : (s.view p).action = (s.heap p).action := rfl

@[simp] theorem path_view (s : Merger) (p : ℕ) : (s.view p).path = (s.heap p).path := rfl

@[simp] theorem cookie_view (s : Merger) (p : ℕ) : (s.view p).cookie = (s.heap p).cookie := rfl

@[simp] theorem edit_view (s : Merger) (p : ℕ) : (s.view p).edit = (s.heap p).edit := rfl

/-- What the incoming event is when it is compared with the buffered ones: paired, without a pair, or a new file. -/
theorem receive_view (s : Merger) (event : VfsEvent) (hp : p ∉ s.events) :
    (s.receive p event).events = s.events ∧ (∀ x ∈ s.events, (s.receive p event).view x = s.view x) ∧
      ((s.receive p event).heap p).edit = event.edit ∧ ((s.receive p event).heap p).path = event.path ∧
      ((s.receive p event).heap p).dev = event.dev := by
  rcases receive_cases s event hp with ⟨hto, q, hq, -, heq⟩ | ⟨e, heq, -, he⟩
  · rw [heq]
    refine ⟨rfl, fun x hx => ?_, ?_⟩
    · have hxp : x ≠ p := ne_of_mem_of_not_mem hx hp
      rw [view, heap_update_of_ne _ hxp]
      by_cases hxq : x = q
      · rw [hxq, heap_update_self]
        rfl
      · rw [heap_update_of_ne _ hxq]
        rfl
    · rw [heap_update_self]
      exact ⟨rfl, rfl, rfl⟩
  · rw [heq]
    refine ⟨rfl, fun x hx => ?_, ?_⟩
    · rw [view, heap_update_of_ne _ (ne_of_mem_of_not_mem hx hp)]
      rfl
    · rw [heap_update_self]
      rcases he with ⟨-, rfl⟩ | ⟨hto, -, rfl⟩
      · exact ⟨rfl, rfl, rfl⟩
      · refine ⟨?_, rfl, rfl⟩
        rw [VfsEvent.edit_of_renameTo hto]
        rfl

/-- The functions of the source accept what `Undoes` says. -/
theorem undoes_iff (hp : p ∉ s.events) {fn : Merger → ℕ → VfsEvent → Option Merger}
    (hfn : actionMergeFns ((s.receive p event).heap p).action = some fn) {x : ℕ} (hx : x ∈ s.events) :
    (fn (s.receive p event) x ((s.receive p event).heap p)).isSome ↔ s.Undoes event x := by
  have hxp : x ≠ p := ne_of_mem_of_not_mem hx hp
  rcases receive_cases s event hp with ⟨hto, q, hq, hcookie, heq⟩ | ⟨e, heq, hpair, he⟩
  · -- the first half is in the buffer, so the event is merged as what it is
    rw [heq, heap_update_self] at hfn ⊢
    rw [VfsEvent.action_setPair, hto] at hfn
    obtain rfl := Option.some.inj hfn
    have hheap : ((s.update q (.setPair (some p))).update p fun _ => event.setPair (some q)).heap x = s.heap x ∨
        ((s.update q (.setPair (some p))).update p fun _ => event.setPair (some q)).heap x =
          (s.heap x).setPair (some p) := by
      rw [heap_update_of_ne _ hxp]
      by_cases hxq : x = q
      · rw [hxq, heap_update_self]
        exact .inr rfl
      · rw [heap_update_of_ne _ hxq]
        exact .inl rfl
    have hnot : ¬ ∀ z ∈ s.events, (s.heap z).cookie ≠ event.cookie := fun hall => hall q hq hcookie
    rw [mergeRenameToFile_isSome, Undoes, hto]
    simp only [hnot, and_false, or_false]
    rcases hheap with hheap | hheap <;> rw [hheap] <;>
      exact and_congr_right fun _ => ⟨And.left, fun h => ⟨h, by simp⟩⟩
  · rw [heq, heap_update_self] at hfn ⊢
    have hheap : (s.update p fun _ => e).heap x = s.heap x := heap_update_of_ne _ hxp _
    rcases he with ⟨hto, rfl⟩ | ⟨hto, hnone, rfl⟩
    · rw [VfsEvent.action_setPair] at hfn
      rw [Undoes]
      cases hact : event.action with
      | newFile | newLink | newSymlink =>
        rw [hact] at hfn
        obtain rfl := Option.some.inj hfn
        rw [mergeNewFile_isSome, hheap]
        rfl
      | delFile | renameFromFile =>
        rw [hact] at hfn
        obtain rfl := Option.some.inj hfn
        exact mergeGone_isSome.trans (by rw [hheap]; rfl)
      | renameToFile => exact absurd hact hto
      | _ =>
        rw [hact] at hfn
        cases hfn
    · obtain rfl := Option.some.inj hfn
      rw [mergeNewFile_isSome, hheap, Undoes, hto]
      exact and_congr_right fun _ => ⟨fun h => .inr ⟨h, hnone⟩, fun h => h.elim .inl And.left⟩

/-- An event that undoes nothing goes to the end of the list; else it is merged with the last event that it undoes. -/
theorem absorb_undoes (s : Merger) (event : VfsEvent) (hp : p ∉ s.events) :
    ((∀ x ∈ s.events, ¬ s.Undoes event x) ∧ (s.receive p event).absorb p =
      { s.receive p event with events := s.events ++ [p], number := (s.receive p event).number + 1 }) ∨
    ∃ front q back s', s.events = front ++ q :: back ∧ s.Undoes event q ∧ (∀ x ∈ back, ¬ s.Undoes event x) ∧
      (s.receive p event).Merged ((s.receive p event).heap p) q s' ∧
      (s.receive p event).absorb p = { s' with freed := p :: s'.freed } := by
  have hevents := (receive_view s event hp).1
  rw [absorb]
  cases hmerge : (s.receive p event).mergeEvent ((s.receive p event).heap p) with
  | none =>
    refine .inl ⟨fun x hx hundoes => ?_, by rw [hevents]⟩
    rw [mergeEvent] at hmerge
    cases hfn : actionMergeFns ((s.receive p event).heap p).action with
    | none =>
      -- an event that is not merged undoes nothing
      rw [Undoes] at hundoes
      rcases receive_cases s event hp with ⟨hto, q, -, -, heq⟩ | ⟨e, heq, -, ⟨hto, rfl⟩ | ⟨hto, -, rfl⟩⟩
      · rw [heq, heap_update_self, VfsEvent.action_setPair, hto] at hfn
        cases hfn
      · rw [heq, heap_update_self, VfsEvent.action_setPair] at hfn
        cases hact : event.action <;> rw [hact] at hfn hundoes <;>
          first | exact hundoes.2 | cases hfn
      · rw [heq, heap_update_self] at hfn
        cases hfn
    | some fn =>
      rw [hfn, Option.bind_some, hevents, List.findSome?_eq_none_iff] at hmerge
      have hsome := (undoes_iff hp hfn hx).mpr hundoes
      rw [hmerge x (List.mem_reverse.mpr hx)] at hsome
      cases hsome
  | some s' =>
    obtain ⟨front, q, back, fn, hsplit, hfn, hnone, hq⟩ := mergeEvent_eq_some hmerge
    rw [hevents] at hsplit
    have hmem : ∀ x ∈ q :: back, x ∈ s.events := fun x hx => by
      rw [hsplit]
      exact List.mem_append_right _ hx
    refine .inr ⟨front, q, back, s', hsplit, ?_, fun x hx hundoes => ?_, (merged_of_fn hfn hq).2, rfl⟩
    · exact (undoes_iff hp hfn (hmem q List.mem_cons_self)).mp (by rw [hq]; rfl)
    · have hsome := (undoes_iff hp hfn (hmem x (List.mem_cons_of_mem _ hx))).mpr hundoes
      rw [hnone x hx] at hsome
      cases hsome

end Merger

/-! ## Series without open halves -/

/-- A series of events in which every half of a file rename has the other half beside it. -/
structure Closed (events : List VfsEvent) : Prop where
  chain : events.IsChain Adjacent
  head : ∀ e, events.head? = some e → e.action ≠ .renameToFile
  last : ∀ e, events.getLast? = some e → e.action ≠ .renameFromFile

section Closed

variable {A B : List VfsEvent} {e : VfsEvent}

theorem Closed.append (hA : Closed A) (hB : Closed B) : Closed (A ++ B) := by
  refine ⟨List.isChain_append.mpr ⟨hA.chain, hB.chain, fun x hx y hy => ?_⟩, fun e he => ?_, fun e he => ?_⟩
  · exact ⟨fun hfrom => absurd hfrom (hA.last x hx), fun hto => absurd hto (hB.head y hy)⟩
  · rw [List.head?_append, Option.or_eq_some_iff] at he
    rcases he with he | ⟨-, he⟩
    · exact hA.head e he
    · exact hB.head e he
  · rw [List.getLast?_append, Option.or_eq_some_iff] at he
    rcases he with he | ⟨-, he⟩
    · exact hB.last e he
    · exact hA.last e he

theorem closed_singleton (hfrom : e.action ≠ .renameFromFile) (hto : e.action ≠ .renameToFile) : Closed [e] := by
  refine ⟨.singleton e, fun x hx => ?_, fun x hx => ?_⟩
  · obtain rfl : e = x := by simpa using hx
    exact hto
  · obtain rfl : e = x := by simpa using hx
    exact hfrom

/-- What stands before an event that is no second half is closed. -/
theorem closed_left (hchain : (A ++ e :: B).IsChain Adjacent)
    (hhead : ∀ x, (A ++ e :: B).head? = some x → x.action ≠ .renameToFile) (he : e.action ≠ .renameToFile) :
    Closed A := by
  obtain ⟨hA, -, hseam⟩ := List.isChain_append.mp hchain
  refine ⟨hA, fun x hx => hhead x ?_, fun x hx hfrom => he ((hseam x hx e rfl).1 hfrom).1⟩
  rw [List.head?_append, hx]
  rfl

/-- What stands behind an event that is no first half is closed, if the series does not end with one. -/
theorem closed_right (hchain : (A ++ e :: B).IsChain Adjacent)
    (hlast : ∀ x, (A ++ e :: B).getLast? = some x → x.action ≠ .renameFromFile) (he : e.action ≠ .renameFromFile) :
    Closed B := by
  obtain ⟨-, hB, -⟩ := List.isChain_append.mp hchain
  obtain ⟨hseam, hB⟩ := List.isChain_cons.mp hB
  refine ⟨hB, fun x hx hto => he ((hseam x hx).2 hto), fun x hx => hlast x ?_⟩
  rw [List.getLast?_append, List.getLast?_cons, hx]
  rfl

end Closed

namespace VfsEvent

/-- An event that a merge has left alone, or has rewritten to one that stands for the same edit. -/
def Rewritten (e e' : VfsEvent) : Prop :=
  e' = e ∨ e.action = .renameToFile ∧ e.pair ≠ none ∧ e' = e.rewrite .newFile ∨
    e.action = .renameFromFile ∧ e' = e.rewrite .delFile

namespace Rewritten

variable {e e' : VfsEvent} (h : e.Rewritten e')

include h

theorem edit_eq : e'.edit = e.edit := by
  rcases h with rfl | ⟨hto, -, rfl⟩ | ⟨hfrom, rfl⟩
  · rfl
  · rw [edit_of_renameTo hto]
    rfl
  · rw [(show e.Takes from .inr hfrom).edit_eq]
    rfl

theorem path_eq : e'.path = e.path := by
  rcases h with rfl | ⟨-, -, rfl⟩ | ⟨-, rfl⟩ <;> rfl

theorem dev_eq : e'.dev = e.dev := by
  rcases h with rfl | ⟨-, -, rfl⟩ | ⟨-, rfl⟩ <;> rfl

theorem eq_of_to (hto : e'.action = .renameToFile) : e' = e := by
  rcases h with rfl | ⟨-, -, rfl⟩ | ⟨-, rfl⟩
  · rfl
  · cases hto
  · cases hto

theorem eq_of_from (hfrom : e'.action = .renameFromFile) : e' = e := by
  rcases h with rfl | ⟨-, -, rfl⟩ | ⟨-, rfl⟩
  · rfl
  · cases hfrom
  · cases hfrom

theorem takes (ht : e'.Takes) : e.Takes := by
  rcases h with rfl | ⟨-, -, rfl⟩ | ⟨hfrom, -⟩
  · exact ht
  · rcases ht with ht | ht <;> cases ht
  · exact .inr hfrom

theorem undoable (hu : e'.Undoable) : e.Undoable := by
  rcases h with rfl | ⟨hto, hpair, -⟩ | ⟨-, rfl⟩
  · exact hu
  · exact .inr ⟨hto, hpair⟩
  · rcases hu with hu | ⟨hu, -⟩ <;> cases hu

end Rewritten

end VfsEvent

/-! ## What a merge makes of the log -/

namespace Merger

variable {s s' : Merger} {p q y : ℕ} {cur : VfsEvent} {front back : List ℕ} {pre : List VfsEvent}

/-- What a merge with the event between `front` and `back` makes of the buffer behind the events `pre`. -/
structure Shortened (s s' : Merger) (front back : List ℕ) (pre : List VfsEvent) : Prop where
  events_eq : s'.events = front ++ back
  rewritten : ∀ x ∈ s'.events, (s.heap x).Rewritten (s'.heap x)
  closed : Closed (pre ++ s'.shown)

/-- Buffered first halves carry cookies of their own. -/
def OwnCookies (s : Merger) : Prop :=
  ∀ x ∈ s.events, ∀ y ∈ s.events, (s.heap x).action = .renameFromFile → (s.heap y).action = .renameFromFile →
    (s.heap x).cookie = (s.heap y).cookie → x = y

theorem removeEntry_events (s : Merger) (hnodup : s.events.Nodup) (hsplit : s.events = front ++ q :: back) :
    (s.removeEntry q).events = front ++ back := by
  rw [hsplit] at hnodup
  have hq : q ∉ front := fun hq => (List.disjoint_of_nodup_append hnodup) hq List.mem_cons_self
  show s.events.erase q = _
  rw [hsplit, List.erase_append_right _ hq, List.erase_cons_head]

/-- A list of views in which one event is rewritten. -/
theorem map_view_update {l l' : List ℕ} (hnodup : (l ++ y :: l').Nodup) (f : VfsEvent → VfsEvent) :
    (l ++ y :: l').map (s.update y f).view = l.map s.view ++ (f (s.heap y)).setPair none :: l'.map s.view := by
  have hother : ∀ x, x ≠ y → (s.update y f).view x = s.view x := fun x hx => by
    rw [view, view, heap_update_of_ne _ hx]
  obtain ⟨-, htail, hdisjoint⟩ := List.nodup_append.mp hnodup
  have hl : l.map (s.update y f).view = l.map s.view :=
    List.map_congr_left fun x hx => hother x (hdisjoint x hx y List.mem_cons_self)
  have hl' : l'.map (s.update y f).view = l'.map s.view :=
    List.map_congr_left fun x hx => hother x (ne_of_mem_of_not_mem hx (List.nodup_cons.mp htail).1)
  rw [List.map_append, List.map_cons, hl, hl', view, heap_update_self]

/-- The events beside each other in the buffer. -/
theorem adjacent_of_split (hchain : (pre ++ s.shown).IsChain Adjacent) {x y : ℕ} {l l' : List ℕ}
    (hsplit : s.events = l ++ x :: y :: l') : Adjacent (s.view x) (s.view y) := by
  rw [shown, hsplit, List.map_append, ← List.append_assoc, List.map_cons, List.map_cons] at hchain
  exact List.isChain_iff_forall_rel_of_append_cons_cons.mp hchain rfl

/-- The second half of a rename stands behind its first half. -/
theorem Halves.split (h : s.Halves q p) (hchain : (pre ++ s.shown).IsChain Adjacent) (hown : s.OwnCookies)
    (hnodup : s.events.Nodup) (hsplit : s.events = front ++ p :: back) : ∃ l, front = l ++ [q] := by
  have hq : q ∈ front := by
    have hsub := h.before
    rw [hsplit] at hsub hnodup
    exact mem_of_sublist hnodup hsub
  rcases List.eq_nil_or_concat' front with rfl | ⟨l, x, rfl⟩
  · cases hq
  · rw [List.append_assoc, List.singleton_append] at hsplit
    have hadj := adjacent_of_split hchain hsplit
    have hfrom : (s.heap x).action = .renameFromFile := hadj.2 h.to_action
    obtain ⟨-, hcookie, -⟩ := hadj.1 hfrom
    have hx : x ∈ s.events := by
      rw [hsplit]
      simp
    have hq' : q ∈ s.events := h.before.subset (by simp)
    exact ⟨l, by rw [hown q hq' x hx h.from_action hfrom (h.cookie_eq.trans hcookie.symm)]⟩

/-- The first half of a rename stands before its second half. -/
theorem Halves.split_from (h : s.Halves p q) (hchain : (pre ++ s.shown).IsChain Adjacent) (hown : s.OwnCookies)
    (hnodup : s.events.Nodup) (hsplit : s.events = front ++ p :: back) : ∃ l, back = q :: l := by
  obtain ⟨l₁, l₂, hq⟩ := List.append_of_mem (h.before.subset (show q ∈ [p, q] by simp))
  obtain ⟨l, rfl⟩ := h.split hchain hown hnodup hq
  rw [hq, List.append_assoc, List.singleton_append] at hsplit
  rw [hq, List.append_assoc, List.singleton_append] at hnodup
  have hp : p ∉ l := fun hp => (List.disjoint_of_nodup_append hnodup) hp List.mem_cons_self
  have hp' : p ∉ q :: l₂ := (List.nodup_cons.mp (List.nodup_append.mp hnodup).2.1).1
  obtain ⟨-, -, hback⟩ := (List.append_cons_inj_of_notMem hp hp').mp hsplit
  exact ⟨l₂, hback.symm⟩

/-- Two halves give way to an event that is no half. -/
theorem closed_between (hchain : (pre ++ s.shown).IsChain Adjacent)
    (hhead : ∀ e, (pre ++ s.shown).head? = some e → e.action ≠ .renameToFile)
    (hlast : ∀ e, (pre ++ s.shown).getLast? = some e → e.action ≠ .renameFromFile) {x y : ℕ} {l l' : List ℕ}
    (hsplit : s.events = l ++ x :: y :: l') (hfrom : (s.heap x).action = .renameFromFile)
    (hto : (s.heap y).action = .renameToFile) {z : VfsEvent} (hzfrom : z.action ≠ .renameFromFile)
    (hzto : z.action ≠ .renameToFile) : Closed (pre ++ (l.map s.view ++ z :: l'.map s.view)) := by
  have hshown : pre ++ s.shown = pre ++ l.map s.view ++ s.view x :: s.view y :: l'.map s.view := by
    rw [shown, hsplit, List.map_append, ← List.append_assoc, List.map_cons, List.map_cons]
  rw [hshown] at hchain hhead hlast
  have hleft : Closed (pre ++ l.map s.view) := closed_left hchain hhead (by simp [hfrom])
  rw [List.append_cons] at hchain hlast
  have hright : Closed (l'.map s.view) := closed_right hchain hlast (by simp [hto])
  rw [← List.append_assoc]
  exact hleft.append ((closed_singleton hzfrom hzto).append hright)

/-- A merge of an event that is not paired. -/
theorem Merged.shortened (h : s.Merged cur q s') (hcur : cur.pair = none) (hs : s.Sound) (hown : s.OwnCookies)
    (hlinked : ∀ x ∈ s.events.tail, (s.heap x).action = .renameToFile → (s.heap x).pair ≠ none)
    (hchain : (pre ++ s.shown).IsChain Adjacent)
    (hhead : ∀ e, (pre ++ s.shown).head? = some e → e.action ≠ .renameToFile)
    (hlast : ∀ e, (pre ++ s.shown).getLast? = some e → e.action ≠ .renameFromFile)
    (hsplit : s.events = front ++ q :: back) : s.Shortened s' front back pre := by
  have hq : q ∈ s.events := by
    rw [hsplit]
    simp
  -- an event that is no half is taken out
  have hwhole : (s.heap q).action ≠ .renameFromFile → (s.heap q).action ≠ .renameToFile →
      s.Shortened (s.removeEntry q) front back pre := fun hfrom hto => by
    have hevents := s.removeEntry_events hs.nodup hsplit
    refine ⟨hevents, fun x _ => .inl rfl, ?_⟩
    rw [shown, hsplit, List.map_append, List.map_cons, ← List.append_assoc] at hchain hhead hlast
    rw [shown, hevents, List.map_append, ← List.append_assoc]
    exact (closed_left hchain hhead hto).append (closed_right hchain hlast hfrom)
  cases h with
  | recreated _ hact => exact hwhole (by simp [hact]) (by simp [hact])
  | undone _ hact =>
    refine hwhole (fun hfrom => ?_) fun hto => ?_
    · rw [hfrom] at hact
      cases hact
    · rw [hto] at hact
      cases hact
  | refilled _ hact hpair =>
    -- a first half without a partner is the last event of all
    exfalso
    cases back with
    | nil =>
      refine hlast (s.view q) ?_ hact
      rw [shown, hsplit]
      simp
    | cons b back =>
      obtain ⟨hto, -⟩ := (adjacent_of_split hchain hsplit).1 hact
      have hb : b ∈ s.events.tail := by
        rw [hsplit]
        cases front <;> simp
      obtain ⟨w, hw⟩ := hs.partners_of_not_loose (List.mem_of_mem_tail hb) fun hloose =>
        hlinked b hb hto (hloose (.inr hto))
      rcases hw with hh | hh
      · exact absurd (hto.symm.trans hh.from_action) (by decide)
      · rw [List.append_cons] at hsplit
        obtain ⟨l, hl⟩ := hh.split hchain hown hs.nodup hsplit
        obtain ⟨-, hqw⟩ := List.append_inj' hl rfl
        obtain rfl : q = w := by simpa using hqw
        simp [hh.from_pair] at hpair
  | @refilledPaired y _ hact hpair =>
    have hpartners := hs.partners_of_pair hq (.inl hact) hpair
    rw [writePair_eq hpair hpartners.symm.mem]
    rcases hpartners with hh | hh
    · obtain ⟨l, rfl⟩ := hh.split_from hchain hown hs.nodup hsplit
      have hnodup : (front ++ y :: l).Nodup :=
        (hsplit ▸ hs.nodup).sublist ((List.sublist_cons_self q _).append_left front)
      have hevents := (s.update y (.rewrite .newFile)).removeEntry_events hs.nodup hsplit
      refine ⟨hevents, fun x _ => ?_, ?_⟩
      · by_cases hx : x = y
        · refine .inr (.inl ⟨hx ▸ hh.to_action, by simp [hx, hh.to_pair], ?_⟩)
          exact hx ▸ heap_update_self _ _ _
        · exact .inl (heap_update_of_ne _ hx _)
      · rw [shown, hevents]
        refine map_view_update hnodup (.rewrite .newFile) ▸ ?_
        exact closed_between hchain hhead hlast hsplit hact hh.to_action (by simp [VfsEvent.rewrite])
          (by simp [VfsEvent.rewrite])
    · exact absurd (hact.symm.trans hh.to_action) (by decide)
  | @undonePaired y _ hact hpair =>
    have hpartners := hs.partners_of_pair hq (.inr hact) hpair
    rw [writePair_eq hpair hpartners.symm.mem]
    rcases hpartners with hh | hh
    · exact absurd (hact.symm.trans hh.from_action) (by decide)
    · obtain ⟨l, rfl⟩ := hh.split hchain hown hs.nodup hsplit
      have hnodup : (l ++ [y] ++ back).Nodup :=
        (hsplit ▸ hs.nodup).sublist ((List.sublist_cons_self q _).append_left (l ++ [y]))
      have hevents := (s.update y (.rewrite .delFile)).removeEntry_events hs.nodup hsplit
      refine ⟨hevents, fun x _ => ?_, ?_⟩
      · by_cases hx : x = y
        · refine .inr (.inr ⟨hx ▸ hh.from_action, ?_⟩)
          exact hx ▸ heap_update_self _ _ _
        · exact .inl (heap_update_of_ne _ hx _)
      · rw [List.append_assoc, List.singleton_append] at hnodup hsplit hevents
        rw [shown, hevents]
        refine map_view_update hnodup (.rewrite .delFile) ▸ ?_
        exact closed_between hchain hhead hlast hsplit hh.from_action hact (by simp [VfsEvent.rewrite])
          (by simp [VfsEvent.rewrite])
  | overwritten _ _ hpair => simp [hpair] at hcur

/-- A merge of a second half whose first half is the last event of the buffer. -/
theorem Merged.shortened_paired (h : s.Merged cur q s') (hto : cur.action = .renameToFile) (hcur : cur.pair = some y)
    (hnodup : s.events.Nodup) (hchain : (pre ++ s.shown).IsChain Adjacent)
    (hhead : ∀ e, (pre ++ s.shown).head? = some e → e.action ≠ .renameToFile) {l : List ℕ}
    (hy : s.events = l ++ [y]) (hfrom : (s.heap y).action = .renameFromFile)
    (hsplit : s.events = front ++ q :: back) : s.Shortened s' front back pre := by
  have hmem : y ∈ s.events := by
    rw [hy]
    simp
  cases h with
  | recreated hact | refilled hact | refilledPaired hact =>
    rw [hto] at hact
    cases hact
  | undone hact | undonePaired hact => simp [hto] at hact
  | overwritten _ hdel hpair =>
    obtain rfl := Option.some.inj (hcur.symm.trans hpair)
    rw [writePair_eq hpair hmem]
    -- the first half stands behind the event that is taken out
    have hne : q ≠ y := by
      rintro rfl
      exact absurd (hdel.symm.trans hfrom) (by decide)
    obtain ⟨back', rfl⟩ : ∃ back', back = back' ++ [y] := by
      rcases List.eq_nil_or_concat' back with rfl | ⟨back', z, rfl⟩
      · obtain ⟨-, heq⟩ := List.append_inj' (hsplit.symm.trans hy) rfl
        exact absurd (List.singleton_inj.mp heq) hne
      · have hends : l ++ [y] = (front ++ q :: back') ++ [z] := by
          rw [← hy, hsplit, List.append_assoc, List.cons_append]
        obtain ⟨-, heq⟩ := List.append_inj' hends rfl
        exact ⟨back', by rw [List.singleton_inj.mp heq]⟩
    have hevents := (s.update y (.rewrite .delFile)).removeEntry_events hnodup hsplit
    refine ⟨hevents, fun x _ => ?_, ?_⟩
    · by_cases hx : x = y
      · refine .inr (.inr ⟨hx ▸ hfrom, ?_⟩)
        exact hx ▸ heap_update_self _ _ _
      · exact .inl (heap_update_of_ne _ hx _)
    · have hshown : pre ++ s.shown =
          (pre ++ front.map s.view ++ s.view q :: back'.map s.view) ++ s.view y :: [] := by
        rw [shown, hsplit]
        simp
      rw [hshown] at hchain hhead
      have hclosed : Closed (pre ++ front.map s.view ++ s.view q :: back'.map s.view) :=
        closed_left hchain hhead (by simp [hfrom])
      have hleft := closed_left hclosed.chain hclosed.head (by simp [hdel])
      have hright := closed_right hclosed.chain hclosed.last (by simp [hdel])
      have hnodup' : (front ++ back' ++ y :: []).Nodup := by
        rw [List.append_assoc]
        exact (hsplit ▸ hnodup).sublist ((List.sublist_cons_self q _).append_left front)
      rw [← List.append_assoc] at hevents
      rw [shown, hevents]
      refine map_view_update hnodup' (.rewrite .delFile) ▸ ?_
      rw [List.map_append, ← List.append_assoc, ← List.append_assoc]
      exact (hleft.append hright).append (closed_singleton (by simp [VfsEvent.rewrite]) (by simp [VfsEvent.rewrite]))

end Merger

end DeepinAnything.EventMerge
