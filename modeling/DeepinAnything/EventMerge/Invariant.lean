import Mathlib.Data.List.Nodup
import Mathlib.Data.List.Perm.Basic
import DeepinAnything.EventMerge.Basic

/-!
# The buffer of events stays sound

Two halves of a rename that are both in the buffer point at each other. A half whose partner leaves
the buffer has its action rewritten or its pair cleared in the same step, and a `pair` is only
followed where the action says that the event is a half; so the pairs that are left dangling are never
followed.
-/

namespace DeepinAnything.EventMerge

open ByteMem

/-- No half of a rename with a partner: `pair` will not be followed from here. -/
def VfsEvent.Loose (e : VfsEvent) : Prop :=
  e.action = .renameFromFile ∨ e.action = .renameToFile → e.pair = none

namespace Merger

variable {s s' : Merger} {p : ℕ}

/-- The events at `q` and `p` are in the buffer and are the two halves of a rename. -/
structure Halves (s : Merger) (q p : ℕ) : Prop where
  before : [q, p].Sublist s.events
  from_action : (s.heap q).action = .renameFromFile
  from_pair : (s.heap q).pair = some p
  to_action : (s.heap p).action = .renameToFile
  to_pair : (s.heap p).pair = some q
  cookie_eq : (s.heap q).cookie = (s.heap p).cookie

/-- Halves in either order. -/
def Partners (s : Merger) (x y : ℕ) : Prop := s.Halves x y ∨ s.Halves y x

namespace Partners

variable {x y : ℕ}

theorem symm (h : s.Partners x y) : s.Partners y x := Or.symm h

theorem pair_eq (h : s.Partners x y) : (s.heap x).pair = some y :=
  h.elim Halves.from_pair Halves.to_pair

theorem mem (h : s.Partners x y) : x ∈ s.events :=
  h.elim (fun h => h.before.subset (by simp)) fun h => h.before.subset (by simp)

theorem ne (h : s.Partners x y) : x ≠ y := by
  rintro rfl
  have hboth : s.Halves x x := h.elim id id
  have := hboth.from_action.symm.trans hboth.to_action
  simp at this

/-- Partners stay partners where nothing happens to them. -/
theorem frame (h : s.Partners x y) (hx : s'.heap x = s.heap x) (hy : s'.heap y = s.heap y)
    (hsub : ∀ l : List ℕ, l ⊆ [x, y] → l.Sublist s.events → l.Sublist s'.events) :
    s'.Partners x y := by
  rcases h with h | h
  · refine .inl ⟨hsub _ (by simp) h.before, ?_, ?_, ?_, ?_, ?_⟩
    · rw [hx, h.from_action]
    · rw [hx, h.from_pair]
    · rw [hy, h.to_action]
    · rw [hy, h.to_pair]
    · rw [hx, hy, h.cookie_eq]
  · refine .inr ⟨hsub _ (by simp) h.before, ?_, ?_, ?_, ?_, ?_⟩
    · rw [hy, h.from_action]
    · rw [hy, h.from_pair]
    · rw [hx, h.to_action]
    · rw [hx, h.to_pair]
    · rw [hy, hx, h.cookie_eq]

/-- Taking out another event does not part partners. -/
theorem moveEvent {p : ℕ} (h : s.Partners x y) (hx : x ≠ p) (hy : y ≠ p) :
    (s.moveEvent p).Partners x y := by
  refine h.frame rfl rfl fun l hsub hl => ?_
  have hnot : p ∉ l := fun hmem => by
    rcases List.mem_cons.mp (hsub hmem) with rfl | hmem
    · exact hx rfl
    · exact hy (List.mem_singleton.mp hmem).symm
  have herase := hl.erase p
  rwa [List.erase_of_not_mem hnot] at herase

theorem not_loose (h : s.Partners x y) : ¬ (s.heap x).Loose := by
  intro hl
  have hnone := hl (h.elim (fun h => .inl h.from_action) fun h => .inr h.to_action)
  simp [h.pair_eq] at hnone

end Partners

/-- The counter is right, no event is in the list twice, every event has its partner in the buffer or
needs none, and no write has missed. -/
structure Sound (s : Merger) : Prop where
  number_eq : s.number = s.events.length
  nodup : s.events.Nodup
  linked : ∀ p ∈ s.events, (s.heap p).Loose ∨ ∃ q, s.Partners p q
  fault_eq : s.fault = false

/-! ## Small changes -/

namespace Sound

theorem partners_of_not_loose (h : s.Sound) {p : ℕ} (hp : p ∈ s.events) (hl : ¬ (s.heap p).Loose) :
    ∃ q, s.Partners p q := (h.linked p hp).resolve_left hl

/-- The pair of a half leads to the other half. -/
theorem partners_of_pair (h : s.Sound) {p q : ℕ} (hp : p ∈ s.events)
    (hact : (s.heap p).action = .renameFromFile ∨ (s.heap p).action = .renameToFile)
    (hpair : (s.heap p).pair = some q) : s.Partners p q := by
  obtain ⟨q', hq⟩ := h.partners_of_not_loose hp fun hl => by simp [hl hact] at hpair
  obtain rfl : q' = q := Option.some.inj (hq.pair_eq.symm.trans hpair)
  exact hq

/-- What is outside the list, and what is loose and stays so, can be written to. -/
theorem update_loose (h : s.Sound) {q : ℕ} {f : VfsEvent → VfsEvent}
    (hq : q ∉ s.events ∨ (s.heap q).Loose ∧ (f (s.heap q)).Loose) : (s.update q f).Sound := by
  refine ⟨h.number_eq, h.nodup, fun p hp => ?_, h.fault_eq⟩
  by_cases hpq : p = q
  · subst hpq
    left
    rcases hq with hq | ⟨-, hq⟩
    · exact absurd hp hq
    · simpa [update] using hq
  · have hheap : (s.update q f).heap p = s.heap p := Function.update_of_ne hpq _ _
    rcases h.linked p hp with hl | ⟨w, hw⟩
    · left
      rw [hheap]
      exact hl
    · right
      refine ⟨w, hw.frame hheap (Function.update_of_ne ?_ _ _) fun l _ hl => hl⟩
      rintro rfl
      rcases hq with hq | ⟨hq, -⟩
      · exact hq hw.symm.mem
      · exact hw.symm.not_loose hq

theorem append_loose (h : s.Sound) {p : ℕ} (hp : p ∉ s.events) (hl : (s.heap p).Loose) :
    ({ s with events := s.events ++ [p], number := s.number + 1 } : Merger).Sound := by
  refine ⟨?_, ?_, fun x hx => ?_, h.fault_eq⟩
  · simp [h.number_eq]
  · exact List.nodup_append.mpr ⟨h.nodup, by simp, by rintro a ha b hb rfl; simp at hb; exact hp (hb ▸ ha)⟩
  · rcases List.mem_append.mp hx with hx | hx
    · rcases h.linked x hx with hx | ⟨w, hw⟩
      · exact .inl hx
      · exact .inr ⟨w, hw.frame rfl rfl fun l _ hl => hl.trans (List.sublist_append_left _ _)⟩
    · obtain rfl : x = p := List.mem_singleton.mp hx
      exact .inl hl

/-- A loose event can be taken out. -/
theorem erase_loose (h : s.Sound) {p : ℕ} (hp : p ∈ s.events) (hl : (s.heap p).Loose) :
    (s.moveEvent p).Sound := by
  refine ⟨?_, h.nodup.erase p, fun x hx => ?_, h.fault_eq⟩
  · have hlen := List.length_erase_of_mem hp
    have hpos := List.length_pos_of_mem hp
    simp only [moveEvent, h.number_eq, hlen]
    omega
  · have hx' := (h.nodup.mem_erase_iff.mp hx)
    rcases h.linked x hx'.2 with hloose | ⟨w, hw⟩
    · exact .inl hloose
    · refine .inr ⟨w, hw.moveEvent hx'.1 ?_⟩
      rintro rfl
      exact hw.symm.not_loose hl

/-- The partner of a half that is made loose can be taken out. -/
theorem erase_partner (h : s.Sound) {x y : ℕ} (hxy : s.Partners x y) {f : VfsEvent → VfsEvent}
    (hf : (f (s.heap y)).Loose) : ((s.update y f).moveEvent x).Sound := by
  refine ⟨?_, h.nodup.erase x, fun z hz => ?_, h.fault_eq⟩
  · have hlen := List.length_erase_of_mem hxy.mem
    have hpos := List.length_pos_of_mem hxy.mem
    simp only [moveEvent, update, h.number_eq, hlen]
    omega
  · obtain ⟨hzx, hz⟩ := h.nodup.mem_erase_iff.mp hz
    by_cases hzy : z = y
    · subst hzy
      left
      simpa [moveEvent, update] using hf
    · have hheap : ((s.update y f).moveEvent x).heap z = s.heap z := Function.update_of_ne hzy _ _
      rcases h.linked z hz with hloose | ⟨w, hw⟩
      · left
        rw [hheap]
        exact hloose
      · -- the partner of another event is another event
        have hwx : w ≠ x := by
          rintro rfl
          exact hzy (Option.some.inj (hw.symm.pair_eq.symm.trans hxy.pair_eq))
        have hwy : w ≠ y := by
          rintro rfl
          exact hzx (Option.some.inj (hw.symm.pair_eq.symm.trans hxy.symm.pair_eq))
        have hw' : (s.update y f).Partners z w :=
          hw.frame hheap (Function.update_of_ne hwy _ _) fun _ _ hl => hl
        exact .inr ⟨w, hw'.moveEvent hzx hwx⟩

/-- Which events have been freed and whether the timer runs does not matter. -/
theorem congr (h : s.Sound) (hheap : s'.heap = s.heap) (hevents : s'.events = s.events)
    (hnumber : s'.number = s.number) (hfault : s'.fault = s.fault) : s'.Sound := by
  refine ⟨by rw [hnumber, hevents, h.number_eq], hevents ▸ h.nodup, fun p hp => ?_,
    hfault.trans h.fault_eq⟩
  rw [hevents] at hp
  rw [hheap]
  refine (h.linked p hp).imp id fun ⟨q, hq⟩ => ⟨q, hq.frame (by rw [hheap]) (by rw [hheap]) ?_⟩
  intro l _ hl
  rwa [hevents]

theorem removeEntry (h : (s.moveEvent p).Sound) : (s.removeEntry p).Sound := h.congr rfl rfl rfl rfl

end Sound

/-! ## Merging -/

/-- A write through a pair that leads to a buffered event is a write to that event. -/
theorem writePair_eq {e : VfsEvent} {q : ℕ} (hpair : e.pair = some q) (hq : q ∈ s.events)
    (f : VfsEvent → VfsEvent) : s.writePair e f = s.update q f := by
  simp [writePair, hpair, hq, update]

/-- What a merge of `cur` with the buffered event at `p` makes of the buffer. -/
inductive Merged (s : Merger) (cur : VfsEvent) (p : ℕ) : Merger → Prop
  | recreated (hcur : cur.action.isNew) (hp : (s.heap p).action = .delFile) :
      Merged s cur p (s.removeEntry p)
  | refilled (hcur : cur.action.isNew) (hp : (s.heap p).action = .renameFromFile)
      (hpair : (s.heap p).pair = none) : Merged s cur p (s.removeEntry p)
  | refilledPaired {q : ℕ} (hcur : cur.action.isNew) (hp : (s.heap p).action = .renameFromFile)
      (hpair : (s.heap p).pair = some q) :
      Merged s cur p ((s.writePair (s.heap p) (.rewrite .newFile)).removeEntry p)
  | undone (hcur : cur.action = .delFile ∨ cur.action = .renameFromFile)
      (hp : (s.heap p).action.isNew) : Merged s cur p (s.removeEntry p)
  | undonePaired {q : ℕ} (hcur : cur.action = .delFile ∨ cur.action = .renameFromFile)
      (hp : (s.heap p).action = .renameToFile) (hpair : (s.heap p).pair = some q) :
      Merged s cur p ((s.writePair (s.heap p) (.rewrite .delFile)).removeEntry p)
  | overwritten {q : ℕ} (hcur : cur.action = .renameToFile) (hp : (s.heap p).action = .delFile)
      (hpair : cur.pair = some q) :
      Merged s cur p ((s.writePair cur (.rewrite .delFile)).removeEntry p)

theorem mergeNewFile_eq_some {p : ℕ} {cur : VfsEvent} (hcur : cur.action.isNew)
    (h : s.mergeNewFile p cur = some s') :
    (s.heap p).cmpEventPath cur = false ∧ Merged s cur p s' := by
  unfold mergeNewFile at h
  simp only at h
  split at h
  · rename_i hp
    split at h
    · simp at h
    · rename_i hpath
      obtain rfl := Option.some.inj h
      exact ⟨by simpa using hpath, .recreated hcur hp⟩
  split at h
  · rename_i hp
    split at h
    · simp at h
    · rename_i hpath
      obtain rfl := Option.some.inj h
      refine ⟨by simpa using hpath, ?_⟩
      cases hpair : (s.heap p).pair with
      | none => exact .refilled hcur hp hpair
      | some q => exact .refilledPaired hcur hp hpair
  · simp at h

theorem mergeGone_eq_some {p : ℕ} {cur : VfsEvent}
    (hcur : cur.action = .delFile ∨ cur.action = .renameFromFile) (h : s.mergeGone p cur = some s') :
    (s.heap p).cmpEventPath cur = false ∧ Merged s cur p s' := by
  unfold mergeGone at h
  simp only at h
  split at h
  · rename_i hp
    split at h
    · simp at h
    · rename_i hpath
      obtain rfl := Option.some.inj h
      exact ⟨by simpa using hpath, .undone hcur hp⟩
  split at h
  · rename_i hp
    split at h
    · simp at h
    rename_i hpair
    split at h
    · simp at h
    · rename_i hpath
      obtain rfl := Option.some.inj h
      obtain ⟨q, hq⟩ := Option.isSome_iff_exists.mp (by simpa [Option.isSome_iff_ne_none] using hpair)
      exact ⟨by simpa using hpath, .undonePaired hcur hp hq⟩
  · simp at h

theorem mergeRenameToFile_eq_some {p : ℕ} {cur : VfsEvent} (hcur : cur.action = .renameToFile)
    (h : s.mergeRenameToFile p cur = some s') :
    (s.heap p).cmpEventPath cur = false ∧ Merged s cur p s' := by
  unfold mergeRenameToFile at h
  simp only at h
  split at h
  · rename_i hp
    split at h
    · simp at h
    rename_i hpair
    split at h
    · simp at h
    · rename_i hpath
      obtain rfl := Option.some.inj h
      obtain ⟨q, hq⟩ := Option.isSome_iff_exists.mp (by simpa [Option.isSome_iff_ne_none] using hpair)
      exact ⟨by simpa using hpath, .overwritten hcur hp hq⟩
  · simp at h

/-- What the function of an action accepts is merged. -/
theorem merged_of_fn {p : ℕ} {cur : VfsEvent} {fn : Merger → ℕ → VfsEvent → Option Merger}
    (hfn : actionMergeFns cur.action = some fn) (h : fn s p cur = some s') :
    (s.heap p).cmpEventPath cur = false ∧ Merged s cur p s' := by
  cases hact : cur.action <;> rw [hact] at hfn <;> simp only [actionMergeFns, Option.some.injEq,
    reduceCtorEq] at hfn <;> subst hfn
  · exact mergeNewFile_eq_some (by rw [hact]; rfl) h
  · exact mergeNewFile_eq_some (by rw [hact]; rfl) h
  · exact mergeNewFile_eq_some (by rw [hact]; rfl) h
  · exact mergeGone_eq_some (.inl hact) h
  · exact mergeGone_eq_some (.inr hact) h
  · exact mergeRenameToFile_eq_some hact h

/-- A merge is with the last event of the list that the function of the action accepts. -/
theorem mergeEvent_eq_some {cur : VfsEvent} (h : s.mergeEvent cur = some s') :
    ∃ front p back fn, s.events = front ++ p :: back ∧ actionMergeFns cur.action = some fn ∧
      (∀ x ∈ back, fn s x cur = none) ∧ fn s p cur = some s' := by
  rw [mergeEvent, Option.bind_eq_some_iff] at h
  obtain ⟨fn, hfn, h⟩ := h
  rw [List.findSome?_eq_some_iff] at h
  obtain ⟨l₁, p, l₂, hsplit, hp, hnone⟩ := h
  refine ⟨l₂.reverse, p, l₁.reverse, fn, ?_, hfn, fun x hx => hnone x (List.mem_reverse.mp hx), hp⟩
  have := congrArg List.reverse hsplit
  simpa using this

theorem loose_of_isNew {e : VfsEvent} (h : e.action.isNew) : e.Loose := by
  rintro (hact | hact) <;> simp [hact, Action.isNew, Action.code] at h

theorem loose_of_delFile {e : VfsEvent} (h : e.action = .delFile) : e.Loose := by
  rintro (hact | hact) <;> simp [hact] at h

/-- A merge of an event that is no second half keeps the buffer sound. -/
theorem Merged.sound {cur : VfsEvent} {p : ℕ} (h : s.Merged cur p s') (hs : s.Sound)
    (hp : p ∈ s.events) (hcur : cur.pair = none) : s'.Sound := by
  cases h with
  | recreated _ hact => exact (hs.erase_loose hp (loose_of_delFile hact)).removeEntry
  | refilled _ _ hpair => exact (hs.erase_loose hp fun _ => hpair).removeEntry
  | undone _ hact => exact (hs.erase_loose hp (loose_of_isNew hact)).removeEntry
  | refilledPaired _ hact hpair =>
    have hpartners := hs.partners_of_pair hp (.inl hact) hpair
    rw [writePair_eq hpair hpartners.symm.mem]
    exact (hs.erase_partner hpartners (loose_of_isNew rfl)).removeEntry
  | undonePaired _ hact hpair =>
    have hpartners := hs.partners_of_pair hp (.inr hact) hpair
    rw [writePair_eq hpair hpartners.symm.mem]
    exact (hs.erase_partner hpartners (loose_of_delFile rfl)).removeEntry
  | overwritten _ _ hpair => simp [hpair] at hcur

/-! ## An event comes in -/

/-- What a second half may be paired with: a first half that has no partner yet. -/
def PairingOk (s : Merger) (event : VfsEvent) : Prop :=
  event.action = .renameToFile → ∀ q ∈ s.events, (s.heap q).cookie = event.cookie →
    (s.heap q).action = .renameFromFile ∧ (s.heap q).pair = none

/-- The first event with the cookie of the incoming one. -/
def found (s : Merger) (event : VfsEvent) : Option ℕ :=
  s.events.find? fun q => (s.heap q).cookie = event.cookie

theorem mem_of_found {event : VfsEvent} {q : ℕ} (h : s.found event = some q) :
    q ∈ s.events ∧ (s.heap q).cookie = event.cookie :=
  ⟨List.mem_of_find?_eq_some h, by
    have hcookie := List.find?_some (p := fun q => decide ((s.heap q).cookie = event.cookie)) h
    exact of_decide_eq_true hcookie⟩

/-- What a second half is paired with is a first half that has no partner yet. -/
def FoundOk (s : Merger) (event : VfsEvent) : Prop :=
  event.action = .renameToFile → ∀ q, s.found event = some q →
    (s.heap q).action = .renameFromFile ∧ (s.heap q).pair = none

theorem PairingOk.foundOk {event : VfsEvent} (h : s.PairingOk event) : s.FoundOk event :=
  fun hto q hq => h hto q (mem_of_found hq).1 (mem_of_found hq).2

/-- A second half is paired with the event that is found. -/
theorem receive_found {p q : ℕ} {event : VfsEvent} (hp : p ∉ s.events)
    (hto : event.action = .renameToFile) (hq : s.found event = some q) :
    s.receive p event =
      (s.update q (.setPair (some p))).update p fun _ => event.setPair (some q) := by
  have hqp : q ≠ p := ne_of_mem_of_not_mem (mem_of_found hq).1 hp
  have hheap : (s.update p fun _ => event.setPair none).heap p = event.setPair none :=
    heap_update_self _ _ _
  have hfind : (s.update p fun _ => event.setPair none).events.find? (fun x =>
      ((s.update p fun _ => event.setPair none).heap x).cookie = (event.setPair none).cookie) =
      s.found event := by
    rw [found, ← List.head?_filter, ← List.head?_filter]
    refine congrArg List.head? (List.filter_congr fun x hx => ?_)
    rw [heap_update_of_ne _ (ne_of_mem_of_not_mem hx hp)]
    rfl
  rw [receive, pairing, hheap, if_pos (show (event.setPair none).action = .renameToFile from hto),
    hfind, hq]
  simp only [update, Function.update_of_ne hqp, Function.update_of_ne hqp.symm,
    Function.update_self]
  congr 1
  rw [Function.update_comm hqp.symm, Function.update_idem]
  rfl

/-- The event is paired, or it is no second half any more. -/
theorem receive_cases (s : Merger) {p : ℕ} (event : VfsEvent) (hp : p ∉ s.events) :
    (event.action = .renameToFile ∧ ∃ q ∈ s.events, (s.heap q).cookie = event.cookie ∧
      s.receive p event =
        (s.update q (.setPair (some p))).update p fun _ => event.setPair (some q)) ∨
    ∃ e : VfsEvent, s.receive p event = s.update p (fun _ => e) ∧ e.pair = none ∧
      (event.action ≠ .renameToFile ∧ e = event.setPair none ∨
        event.action = .renameToFile ∧ (∀ q ∈ s.events, (s.heap q).cookie ≠ event.cookie) ∧
          e = (event.setPair none).rewrite .newFile) := by
  have hheap : (s.update p fun _ => event.setPair none).heap p = event.setPair none :=
    heap_update_self _ _ _
  by_cases hact : event.action = .renameToFile
  · cases hfound : s.found event with
    | none =>
      right
      have hnone : ∀ q ∈ s.events, (s.heap q).cookie ≠ event.cookie := fun q hq hcookie =>
        List.find?_eq_none.mp hfound q hq (decide_eq_true hcookie)
      have hfind : (s.update p fun _ => event.setPair none).events.find? (fun x =>
          ((s.update p fun _ => event.setPair none).heap x).cookie = (event.setPair none).cookie) =
          none := List.find?_eq_none.mpr fun x hx => by
        rw [heap_update_of_ne _ (ne_of_mem_of_not_mem hx hp), decide_eq_true_eq]
        exact hnone x hx
      refine ⟨_, ?_, rfl, .inr ⟨hact, hnone, rfl⟩⟩
      rw [receive, pairing, hheap, if_pos (show (event.setPair none).action = .renameToFile from hact),
        hfind]
      simp only [update, Function.update_self, Function.update_idem]
    | some q =>
      obtain ⟨hq, hcookie⟩ := mem_of_found hfound
      exact .inl ⟨hact, q, hq, hcookie, receive_found hp hact hfound⟩
  · rw [receive, pairing, hheap, if_neg (show ¬ (event.setPair none).action = .renameToFile from hact)]
    exact .inr ⟨_, rfl, rfl, .inl ⟨hact, rfl⟩⟩

/-- A second half that is paired has found its partner. -/
theorem found_of_receive {p q : ℕ} {event : VfsEvent} (hp : p ∉ s.events)
    (hpair : ((s.receive p event).heap p).pair = some q) :
    event.action = .renameToFile ∧ s.found event = some q := by
  rcases receive_cases s event hp with ⟨hto, w, hw, hcookie, -⟩ | ⟨e, heq, hnone, -⟩
  · refine ⟨hto, ?_⟩
    cases hfound : s.found event with
    | none => exact absurd (decide_eq_true hcookie) (List.find?_eq_none.mp hfound w hw)
    | some x => rwa [receive_found hp hto hfound, heap_update_self] at hpair
  · rw [heq, heap_update_self, hnone] at hpair
    simp at hpair

namespace Sound

/-- A second half joins its first half at the end of the list. -/
theorem append_half (h : s.Sound) {q : ℕ} {event : VfsEvent} (hp : p ∉ s.events) (hq : q ∈ s.events)
    (hfrom : (s.heap q).action = .renameFromFile) (hpair : (s.heap q).pair = none)
    (hto : event.action = .renameToFile) (hcookie : (s.heap q).cookie = event.cookie)
    (hheap : s'.heap = Function.update (Function.update s.heap q ((s.heap q).setPair (some p))) p
      (event.setPair (some q)))
    (hevents : s'.events = s.events ++ [p]) (hnumber : s'.number = s.number + 1)
    (hfault : s'.fault = s.fault) : s'.Sound := by
  have hqp : q ≠ p := fun hqp => hp (hqp ▸ hq)
  have hheapp : s'.heap p = event.setPair (some q) := by rw [hheap, Function.update_self]
  have hheapq : s'.heap q = (s.heap q).setPair (some p) := by
    rw [hheap, Function.update_of_ne hqp, Function.update_self]
  have hhalves : s'.Halves q p := by
    refine ⟨?_, by rw [hheapq]; exact hfrom, by rw [hheapq]; rfl, by rw [hheapp]; exact hto,
      by rw [hheapp]; rfl, by rw [hheapp, hheapq]; exact hcookie⟩
    rw [hevents]
    exact (List.singleton_sublist.mpr hq).append (List.Sublist.refl [p])
  refine ⟨?_, ?_, fun x hx => ?_, hfault.trans h.fault_eq⟩
  · rw [hnumber, hevents, h.number_eq]
    simp
  · rw [hevents]
    exact List.nodup_append.mpr ⟨h.nodup, by simp, by
      rintro a ha b hb rfl
      exact hp (List.mem_singleton.mp hb ▸ ha)⟩
  · rw [hevents] at hx
    by_cases hxp : x = p
    · exact .inr ⟨q, .inr (hxp ▸ hhalves)⟩
    by_cases hxq : x = q
    · exact .inr ⟨p, .inl (hxq ▸ hhalves)⟩
    have hx' : x ∈ s.events := (List.mem_append.mp hx).resolve_right (by simpa using hxp)
    have hsame : ∀ z, z ≠ p → z ≠ q → s'.heap z = s.heap z := fun z hzp hzq => by
      rw [hheap, Function.update_of_ne hzp, Function.update_of_ne hzq]
    rcases h.linked x hx' with hl | ⟨w, hw⟩
    · left
      rwa [hsame x hxp hxq]
    · right
      refine ⟨w, hw.frame (hsame x hxp hxq) (hsame w ?_ ?_) fun l _ hl => ?_⟩
      · rintro rfl
        exact hp hw.symm.mem
      · rintro rfl
        exact hw.symm.not_loose fun _ => hpair
      · rw [hevents]
        exact hl.trans (List.sublist_append_left _ _)

/-- The buffer stays sound when an event comes in. -/
theorem absorb (h : s.Sound) (hp : p ∉ s.events) {event : VfsEvent} (hok : s.FoundOk event) :
    ((s.receive p event).absorb p).Sound := by
  rcases receive_cases s event hp with ⟨hto, q, hq, hcookie, heq⟩ | ⟨e, heq, hpair, -⟩
  · -- a second half with its first half in the buffer
    obtain ⟨-, hfound⟩ := found_of_receive (q := q) hp (by rw [heq, heap_update_self]; rfl)
    obtain ⟨hfrom, hnone⟩ := hok hto q hfound
    have hqp : q ≠ p := fun hqp => hp (hqp ▸ hq)
    rw [heq]
    generalize hr : (s.update q (.setPair (some p))).update p (fun _ => event.setPair (some q)) = r
    have hcur : r.heap p = event.setPair (some q) := by
      rw [← hr]
      exact heap_update_self _ _ _
    have hevents : r.events = s.events := by rw [← hr]; rfl
    rw [Merger.absorb, hcur]
    cases hmerge : r.mergeEvent (event.setPair (some q)) with
    | none =>
      refine h.append_half hp hq hfrom hnone hto hcookie ?_ ?_ ?_ ?_ <;> rw [← hr] <;> rfl
    | some s₁ =>
      obtain ⟨front, x, back, fn, hsplit, hfn, -, hmerged⟩ := mergeEvent_eq_some hmerge
      replace hmerged := (merged_of_fn hfn hmerged).2
      have hx : x ∈ s.events := by
        rw [← hevents, hsplit]
        simp
      cases hmerged with
      | recreated hact => exact absurd (show event.action.isNew from hact) (by rw [hto]; decide)
      | refilled hact => exact absurd (show event.action.isNew from hact) (by rw [hto]; decide)
      | refilledPaired hact => exact absurd (show event.action.isNew from hact) (by rw [hto]; decide)
      | undone hact => exact absurd (show event.action = _ ∨ event.action = _ from hact) (by simp [hto])
      | undonePaired hact =>
        exact absurd (show event.action = _ ∨ event.action = _ from hact) (by simp [hto])
      | overwritten _ hdel hpair =>
        obtain rfl := Option.some.inj hpair
        have hxp : x ≠ p := fun hxp => hp (hxp ▸ hx)
        have hxq : x ≠ q := by
          rintro rfl
          rw [← hr, heap_update_of_ne _ hxp, heap_update_self] at hdel
          exact absurd (hfrom.symm.trans hdel) (by decide)
        have hdel' : (s.heap x).action = .delFile := by
          rwa [← hr, heap_update_of_ne _ hxp, heap_update_of_ne _ hxq] at hdel
        have hq' := h.update_loose (q := q)
          (f := fun e => VfsEvent.rewrite .delFile (e.setPair (some p)))
          (.inr ⟨fun _ => hnone, loose_of_delFile rfl⟩)
        have hp' := hq'.update_loose (q := p) (f := fun _ => event.setPair (some q)) (.inl hp)
        have hx' := hp'.erase_loose (p := x) hx (loose_of_delFile (by
          rw [heap_update_of_ne _ hxp, heap_update_of_ne _ hxq]
          exact hdel'))
        rw [writePair_eq rfl (by rw [hevents]; exact hq)]
        refine hx'.congr ?_ ?_ ?_ ?_
        · rw [← hr]
          show Function.update _ _ _ = Function.update (Function.update _ _ _) _ _
          simp only [update, Function.update_of_ne hqp, Function.update_self]
          rw [Function.update_comm hqp.symm, Function.update_idem]
        · rw [← hr]
          rfl
        · rw [← hr]
          rfl
        · rw [← hr]
          rfl
  · rw [heq]
    have hr := h.update_loose (q := p) (f := fun _ => e) (.inl hp)
    have hcur : (s.update p fun _ => e).heap p = e := heap_update_self _ _ _
    rw [Merger.absorb, hcur]
    cases hmerge : (s.update p fun _ => e).mergeEvent e with
    | none =>
      refine hr.append_loose (p := p) hp ?_
      rw [hcur]
      exact fun _ => hpair
    | some s₁ =>
      obtain ⟨front, x, back, fn, hsplit, hfn, -, hmerged⟩ := mergeEvent_eq_some hmerge
      replace hmerged := (merged_of_fn hfn hmerged).2
      exact (hmerged.sound hr (by rw [hsplit]; simp) hpair).congr rfl rfl rfl rfl

end Sound

end Merger

end DeepinAnything.EventMerge
