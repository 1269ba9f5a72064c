import DeepinAnything.EventMerge.Invariant

/-!
# Handing out a batch

`pick_events` goes through the list once. It leaves the first halves of renames that have no partner
yet, and takes everything else up to its limit; so a batch keeps the order of the list, and the only
events that a batch overtakes are such halves.
-/

namespace DeepinAnything.EventMerge.Merger

open ByteMem

variable {s s' : Merger}

/-! ## Two events of a list -/

theorem not_sublist_head {x p : ℕ} {next : List ℕ} (hnodup : (p :: next).Nodup) :
    ¬ [x, p].Sublist (p :: next) := by
  intro h
  have hp := (List.nodup_cons.mp hnodup).1
  rcases List.sublist_cons_iff.mp h with h | ⟨r, hr, h⟩
  · exact hp (h.subset (by simp))
  · obtain ⟨rfl, rfl⟩ := List.cons.inj hr
    exact hp (h.subset (by simp))

theorem mem_of_sublist {q p : ℕ} {kept next : List ℕ} (hnodup : (kept ++ p :: next).Nodup)
    (h : [q, p].Sublist (kept ++ p :: next)) : q ∈ kept := by
  obtain ⟨l₁, l₂, hl, h₁, h₂⟩ := List.sublist_append_iff.mp h
  cases l₁ with
  | nil =>
    obtain rfl : [q, p] = l₂ := hl
    exact absurd h₂ (not_sublist_head (List.nodup_append.mp hnodup).2.1)
  | cons x l₁ =>
    obtain ⟨rfl, -⟩ := List.cons.inj hl
    exact h₁.subset (by simp)

/-! ## The loop -/

/-- What picking `batch` out of `ptrs` makes of the buffer. Pairs may be cleared; nothing else
changes about the events. -/
structure PickedFrom (s s' : Merger) (ptrs batch : List ℕ) : Prop where
  sound : s'.Sound
  moved : batch.Sublist ptrs
  heap : ∀ q, (s'.heap q).setPair none = (s.heap q).setPair none
  pending_eq : s'.pending = s.pending
  quit_eq : s'.quit = s.quit
  freed_eq : s'.freed = s.freed
  skipped : ∀ x y, x ∉ batch → y ∈ batch → [x, y].Sublist ptrs → (s.heap x).deliverable = false
  none_left : batch = [] → ∀ x ∈ ptrs, (s.heap x).deliverable = false

theorem action_eq_of_setPair {e e' : VfsEvent} (h : e'.setPair none = e.setPair none) :
    e'.action = e.action := by
  rw [← VfsEvent.action_setPair none e', h, VfsEvent.action_setPair]

/-- One event is taken out: the buffer stays sound, and the other half of a rename loses its pair. -/
theorem Sound.take (h : s.Sound) {p : ℕ} {kept next : List ℕ} (hevents : s.events = kept ++ p :: next)
    (hkept : ∀ k ∈ kept, (s.heap k).deliverable = false) (hp : (s.heap p).deliverable = true) :
    ∃ s', (if (s.heap p).action = .renameFromFile then
        (s.moveEvent p).writePair (s.heap p) (.setPair none) else s.moveEvent p) = s' ∧
      s'.Sound ∧ s'.events = kept ++ next ∧ s'.pending = s.pending ∧ s'.quit = s.quit ∧
      s'.freed = s.freed ∧ (∀ q, (s'.heap q).setPair none = (s.heap q).setPair none) ∧
      ∀ q, (s'.heap q).deliverable = (s.heap q).deliverable := by
  have hnodup := h.nodup
  rw [hevents] at hnodup
  have hmem : p ∈ s.events := by rw [hevents]; simp
  have herase : s.events.erase p = kept ++ next := by
    have hnot : p ∉ kept := fun hk => by simp [hkept p hk] at hp
    rw [hevents, List.erase_append_right _ hnot, List.erase_cons_head]
  refine ⟨_, rfl, ?_⟩
  by_cases hact : (s.heap p).action = .renameFromFile
  · rw [if_pos hact]
    obtain ⟨q, hpair⟩ : ∃ q, (s.heap p).pair = some q := by
      simpa [VfsEvent.deliverable, hact, Option.isSome_iff_exists] using hp
    have hpartners := h.partners_of_pair hmem (.inl hact) hpair
    have hq : q ∈ (s.moveEvent p).events := (h.nodup.mem_erase_iff).mpr ⟨hpartners.ne.symm, hpartners.symm.mem⟩
    rw [writePair_eq hpair hq]
    have hto : (s.heap q).action = .renameToFile := by
      rcases hpartners with hh | hh
      · exact hh.to_action
      · exact absurd (hact.symm.trans hh.to_action) (by decide)
    refine ⟨(h.erase_partner hpartners (f := .setPair none) fun _ => rfl).congr rfl rfl rfl rfl,
      herase, rfl, rfl, rfl, fun x => ?_, fun x => ?_⟩
    · by_cases hx : x = q
      · rw [hx, heap_update_self]
        rfl
      · rw [heap_update_of_ne _ hx]
        rfl
    · by_cases hx : x = q
      · rw [hx, heap_update_self]
        simp [VfsEvent.deliverable, moveEvent, hto]
      · rw [heap_update_of_ne _ hx]
        rfl
  · rw [if_neg hact]
    refine ⟨h.erase_loose hmem ?_, herase, rfl, rfl, rfl, fun _ => rfl, fun _ => rfl⟩
    -- the first half would have been taken before the second
    by_contra hloose
    obtain ⟨q, hq⟩ := h.partners_of_not_loose hmem hloose
    rcases hq with hh | hh
    · exact hact hh.from_action
    · have hsub := hh.before
      rw [hevents] at hsub
      have hdeliver := hkept q (mem_of_sublist hnodup hsub)
      simp [VfsEvent.deliverable, hh.from_pair] at hdeliver

/-- The loop over the rest `ptrs` of the list, behind events that it has left. -/
theorem pickLoop_spec (h : s.Sound) {kept ptrs : List ℕ} (hevents : s.events = kept ++ ptrs)
    (hkept : ∀ k ∈ kept, (s.heap k).deliverable = false) {i : ℕ} (hi : i < dumpSize)
    (batch : List ℕ) : ∃ s' moved, pickLoop ptrs i s batch = (s', batch ++ moved) ∧
      PickedFrom s s' ptrs moved ∧ s'.events = kept ++ ptrs.filter (· ∉ moved) ∧
      i + moved.length ≤ dumpSize := by
  induction ptrs generalizing s kept i batch with
  | nil =>
    refine ⟨s, [], by rw [pickLoop, List.append_nil], ⟨h, List.Sublist.refl _, fun _ => rfl, rfl, rfl,
      rfl, by simp, by simp⟩, by simpa using hevents, by simp; omega⟩
  | cons p next ih =>
    have hnodup := h.nodup
    rw [hevents] at hnodup
    have hnext : p ∉ next := (List.nodup_cons.mp (List.nodup_append.mp hnodup).2.1).1
    rw [pickLoop]
    simp only
    by_cases hdeliver : (s.heap p).deliverable = true
    · rw [if_pos hdeliver]
      obtain ⟨s₁, heq, hs₁, hevents₁, hpending, hquit, hfreed, hheap, hsame⟩ :=
        h.take hevents hkept hdeliver
      rw [heq]
      by_cases hlast : i + 1 ≥ dumpSize
      · rw [if_pos hlast]
        refine ⟨s₁, [p], rfl, ⟨hs₁, by simp, hheap, hpending, hquit, hfreed, ?_, by simp⟩, ?_, ?_⟩
        · intro x y hx hy hsub
          obtain rfl := List.mem_singleton.mp hy
          exact absurd hsub (not_sublist_head (List.nodup_append.mp hnodup).2.1)
        · rw [hevents₁, List.filter_cons_of_neg (by simp)]
          congr 1
          exact (List.filter_eq_self.mpr fun x hx => by
            simpa using fun hxp : x = p => hnext (hxp ▸ hx)).symm
        · simp only [List.length_singleton]
          omega
      · rw [if_neg hlast]
        obtain ⟨s', moved, heq', hpicked, hleft, hlen⟩ := ih hs₁ hevents₁
          (fun k hk => (hsame k).trans (hkept k hk)) (show i + 1 < dumpSize by omega) (batch ++ [p])
        refine ⟨s', p :: moved, by rw [heq', List.append_assoc]; rfl, ⟨hpicked.sound,
          hpicked.moved.cons_cons p, fun q => (hpicked.heap q).trans (hheap q),
          hpicked.pending_eq.trans hpending, hpicked.quit_eq.trans hquit,
          hpicked.freed_eq.trans hfreed, ?_, by simp⟩, ?_, by rw [List.length_cons]; omega⟩
        · intro x y hx hy hsub
          rw [List.mem_cons, not_or] at hx
          rcases List.mem_cons.mp hy with rfl | hy
          · exact absurd hsub (not_sublist_head (List.nodup_append.mp hnodup).2.1)
          · rw [← hsame x]
            refine hpicked.skipped x y hx.2 hy ?_
            exact hsub.of_cons_of_ne hx.1
        · rw [hleft, List.filter_cons_of_neg (by simp)]
          congr 1
          refine List.filter_congr fun x hx => ?_
          have hxp : x ≠ p := fun hxp => hnext (hxp ▸ hx)
          simp [hxp]
    · rw [if_neg hdeliver]
      rw [Bool.not_eq_true] at hdeliver
      obtain ⟨s', moved, heq', hpicked, hleft, hlen⟩ := @ih s h (kept ++ [p]) (by simpa using hevents)
        (fun k hk => by
          rcases List.mem_append.mp hk with hk | hk
          · exact hkept k hk
          · rwa [List.mem_singleton.mp hk]) i hi batch
      have hpm : p ∉ moved := fun hp => hnext (hpicked.moved.subset hp)
      refine ⟨s', moved, heq', ⟨hpicked.sound, hpicked.moved.cons p, hpicked.heap, hpicked.pending_eq,
        hpicked.quit_eq, hpicked.freed_eq, ?_, ?_⟩, ?_, hlen⟩
      · intro x y hx hy hsub
        by_cases hxp : x = p
        · rwa [hxp]
        · exact hpicked.skipped x y hx hy (hsub.of_cons_of_ne hxp)
      · intro hnil x hx
        rcases List.mem_cons.mp hx with rfl | hx
        · exact hdeliver
        · exact hpicked.none_left hnil x hx
      · rw [hleft, List.filter_cons_of_pos (by simpa using hpm), List.append_assoc]
        rfl

/-- What handing out `batch` makes of the buffer: the rest stays in the list. -/
structure Picked (s s' : Merger) (batch : List ℕ) : Prop where
  sound : s'.Sound
  moved : batch.Sublist s.events
  events_eq : s'.events = s.events.filter (· ∉ batch)
  heap : ∀ q, (s'.heap q).setPair none = (s.heap q).setPair none
  pending_eq : s'.pending = s.pending
  quit_eq : s'.quit = s.quit
  freed_eq : s'.freed = s.freed
  skipped : ∀ x y, x ∈ s'.events → y ∈ batch → [x, y].Sublist s.events →
    s.quit = false ∧ (s.heap x).deliverable = false
  none_left : batch = [] → ∀ x ∈ s'.events, s.quit = false ∧ (s.heap x).deliverable = false

theorem pickEvents_spec (h : s.Sound) : s.Picked s.pickEvents.1 s.pickEvents.2 := by
  rw [pickEvents]
  cases hquit : s.quit with
  | true =>
    rw [if_pos rfl]
    refine ⟨⟨?_, List.nodup_nil, by simp, h.fault_eq⟩, List.Sublist.refl _, ?_, fun _ => rfl, rfl, hquit.symm,
      rfl, by simp, by simp⟩
    · simp [h.number_eq]
    · exact (List.filter_eq_nil_iff.mpr fun x hx => by simpa using hx).symm
  | false =>
    rw [if_neg Bool.false_ne_true]
    obtain ⟨s', moved, heq, hpicked, hleft, -⟩ := @pickLoop_spec s h [] s.events rfl (by simp) 0
      (by decide) []
    rw [heq]
    rw [List.nil_append] at hleft
    refine ⟨hpicked.sound, hpicked.moved, hleft, hpicked.heap, hpicked.pending_eq,
      hpicked.quit_eq, hpicked.freed_eq, ?_, ?_⟩
    · intro x y hx hy hsub
      rw [hleft, List.mem_filter] at hx
      exact ⟨hquit, hpicked.skipped x y (by simpa using hx.2) hy hsub⟩
    · intro hnil x hx
      rw [hleft, List.mem_filter] at hx
      exact ⟨hquit, hpicked.none_left (by simpa using hnil) x hx.1⟩

/-- What is picked and what stays are what was there. -/
theorem perm_split {batch events : List ℕ} (hnodup : events.Nodup) (h : batch.Sublist events) :
    (batch ++ events.filter (· ∉ batch)).Perm events := by
  have hbatch : batch.Perm (events.filter (· ∈ batch)) := by
    refine (List.perm_ext_iff_of_nodup (hnodup.sublist h) (hnodup.filter _)).mpr fun x => ?_
    rw [List.mem_filter]
    exact ⟨fun hx => ⟨h.subset hx, by simpa using hx⟩, fun hx => by simpa using hx.2⟩
  refine (hbatch.append_right _).trans ?_
  simpa using List.filter_append_perm (fun x => decide (x ∈ batch)) events

end DeepinAnything.EventMerge.Merger
