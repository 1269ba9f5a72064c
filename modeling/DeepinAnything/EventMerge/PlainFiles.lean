import DeepinAnything.EventMerge.Delivery

/-!
# Histories in which no file is replaced

Where files only are created, deleted and renamed to new paths, no merge goes wrong: every write that makes a file
makes it where there is none (`Makes`), in the log as in the history, so that a write that is undone has changed what
its undoing restores.
-/

namespace DeepinAnything.EventMerge

open ByteMem PathTree

/-- What a write makes, it makes where there is nothing. -/
def Makes (s : State UInt8 Kind) : Edit UInt8 Kind → Prop
  | .write p v => v ≠ none → s.tree p = none
  | _ => True

/-- The event is no folder's, and a rename does not replace a file. -/
def World.Plain (w : World) (e : VfsEvent) : Prop :=
  ¬ e.OfFolder ∧ (e.action = .renameToFile → w.tree e.path = none)

instance (w : World) (e : VfsEvent) : Decidable (w.Plain e) := inferInstanceAs (Decidable (_ ∧ _))

/-- Where there is nothing in the tree, there is nothing in the tree that the edits leave. -/
theorem World.settled_none {w : World} {path : Bytes} (h : w.tree path = none) : w.settled.tree path = none := by
  rw [World.settled]
  split
  · exact h
  · split
    · simp only [Function.update_apply]
      split
      · rfl
      · exact h
    · exact h

/-- An event of a plain history makes its file where there is none. -/
theorem World.Legal.makes {w : World} {e : VfsEvent} (h : w.Legal e) (hplain : w.Plain e) :
    Makes w.settled e.edit := by
  rw [World.Legal] at h
  rw [VfsEvent.edit]
  cases hact : e.action <;> rw [hact] at h
  case newFile | newLink | newSymlink | newFolder => exact fun _ => World.settled_none h.2
  case delFile | renameFromFile => exact fun hv => absurd rfl hv
  case renameToFile => exact fun _ => World.settled_none (hplain.2 hact)
  all_goals trivial

namespace Merger

variable {s s' : Merger} {t : FileTree} {dev : ℕ} {pre : List VfsEvent} {p q : ℕ} {event : VfsEvent} {w : World}
  {front back : List ℕ}

/-- The log of a buffer in which every write makes something where there is nothing, and no folder is touched. -/
structure PlainLog (t : FileTree) (pre : List VfsEvent) (s : Merger) : Prop where
  makes : Each pathSep Makes ⟨t, none⟩ ((pre ++ s.shown).map VfsEvent.edit)
  files : ∀ x ∈ s.events, ¬ (s.heap x).OfFolder

/-- Every merge into a plain log is right. -/
theorem PlainLog.mergesRight (h : s.PlainLog t pre) (hcomes : Comes t dev pre s w p event) :
    s.MergesRight t pre event := by
  intro front q back hsplit hq hlast
  refine ⟨fun x hx hfolder => absurd hfolder (h.files x ?_), fun hundo => ?_⟩
  · rw [hsplit]
    exact List.mem_append_right _ (List.mem_cons_of_mem _ hx)
  · have hmakes := h.makes
    rw [log_split hsplit, each_append, hundo.edit_eq, hcomes.path_of_undoes (by rw [hsplit]; simp) hq] at hmakes
    exact hmakes.2.1 (by simp)

/-- In a plain history no write is left between an event and the event that it undoes. -/
theorem Comes.not_touches (h : Comes t dev pre s w p event) (hplain : s.PlainLog t pre) (hw : w.Plain event)
    (hsplit : s.events = front ++ q :: back) (hq : s.Undoes event q) (hlast : ∀ x ∈ back, ¬ s.Undoes event x) :
    ∀ e ∈ s.edits back, ¬ e.Touches pathSep event.path := by
  obtain ⟨v, b, hqedit, hedit, -, hrest⟩ := h.restores (hplain.mergesRight h) hsplit hq hlast
  intro e he htouches
  obtain ⟨rfl, hb⟩ := (hrest e he).resolve_left (not_not_intro htouches)
  -- the file would be there when the event comes in, which makes it
  obtain ⟨log₁, log₂, hback⟩ := List.append_of_mem he
  have hsettled := h.follows.settled_eq
  have hlawful := h.tidy.regular.lawful
  rw [log_split hsplit, hback, run_append, ← List.cons_append, run_append, run_cons] at hsettled
  rw [log_split hsplit, hback, lawful_append, ← List.cons_append, lawful_append] at hlawful
  generalize run pathSep (run pathSep ⟨t, none⟩ _) ((s.heap q).edit :: log₁) = st at hsettled hlawful
  have hthere : w.settled.tree event.path = b := by
    rw [hsettled]
    refine tree_run (.of_none hlawful.2.2.1.1) (Function.update_self _ _ _) fun e he => ?_
    exact (hrest e (by rw [hback]; simp [he])).imp_right And.left
  have hmakes := h.legal.makes hw
  rw [hedit] at hmakes
  exact hb (hthere.symm.trans (hmakes hb))

/-- An event that undoes nothing makes a plain log longer. -/
theorem Comes.plain_appended {m : Merger} (h : Comes t dev pre s w p event) (hplain : s.PlainLog t pre)
    (hw : w.Plain event) (hheap : m.heap = (s.receive p event).heap) (hevents : m.events = s.events ++ [p]) :
    m.PlainLog t pre := by
  refine ⟨?_, fun x hx => ?_⟩
  · rw [h.shown_appended hheap hevents, List.map_append, List.map_singleton, edit_view,
      (receive_view s event h.fresh).2.2.1, each_append, ← h.follows.settled_eq]
    exact ⟨hplain.makes, h.legal.makes hw, trivial⟩
  · rw [hevents] at hx
    rw [hheap]
    rcases List.mem_append.mp hx with hx | hx
    · have hfile := hplain.files x hx
      rwa [VfsEvent.OfFolder, ← (alike_receive h.pairing h.fresh hx).action_eq] at hfile
    · obtain rfl := List.mem_singleton.mp hx
      have hfile := hw.1
      rcases receive_action s event h.fresh with ⟨hact, -⟩ | ⟨-, -, hnew⟩
      · rwa [VfsEvent.OfFolder, ← hact] at hfile
      · simp [VfsEvent.OfFolder, hnew]

/-- A merge leaves a plain log. -/
theorem Comes.plain_merged (h : Comes t dev pre s w p event) (hplain : s.PlainLog t pre) (hw : w.Plain event)
    (hsplit : s.events = front ++ q :: back) (hq : s.Undoes event q) (hlast : ∀ x ∈ back, ¬ s.Undoes event x)
    (hshort : (s.receive p event).Shortened s' front back pre) : s'.PlainLog t pre := by
  have hrest := h.not_touches hplain hw hsplit hq hlast
  obtain ⟨v, -, hqedit, -⟩ := h.restores (hplain.mergesRight h) hsplit hq hlast
  have hlawful := h.tidy.regular.lawful
  have hmakes := hplain.makes
  rw [log_split hsplit, lawful_append, hqedit] at hlawful
  rw [log_split hsplit, each_append, hqedit] at hmakes
  refine ⟨?_, fun x hx => ?_⟩
  · rw [List.map_append, h.edits_shortened hshort hsplit, ← edits_map_view, ← List.append_assoc, ← List.map_append,
      each_append]
    refine ⟨hmakes.1, each_cancel hlawful.2.1.1 (fun e he => .inl he) (fun st st' e hoff he hm => ?_) hrest hmakes.2⟩
    cases e with
    | write p v' =>
      intro hv
      rw [← hoff.tree_eq p he]
      exact hm hv
    | _ => trivial
  · have hmem : x ∈ s.events := by
      rw [hsplit]
      exact ((List.sublist_cons_self q back).append_left front).subset (hshort.events_eq ▸ hx)
    have hfile := hplain.files x hmem
    rw [VfsEvent.OfFolder, ← (alike_receive h.pairing h.fresh hmem).action_eq] at hfile
    rcases hshort.rewritten x hx with heq | ⟨-, -, heq⟩ | ⟨-, heq⟩ <;> rw [heq]
    · exact hfile
    · simp [VfsEvent.OfFolder, VfsEvent.rewrite]
    · simp [VfsEvent.OfFolder, VfsEvent.rewrite]

/-- An event of a plain history leaves a plain log. -/
theorem Comes.absorb_plain (h : Comes t dev pre s w p event) (hplain : s.PlainLog t pre) (hw : w.Plain event) :
    ((s.receive p event).absorb p).PlainLog t pre := by
  rcases absorb_undoes s event h.fresh with ⟨-, heq⟩ | ⟨front, q, back, s', hsplit, hq, hlast, hmerged, heq⟩
  · rw [heq]
    exact h.plain_appended hplain hw rfl rfl
  · rw [heq]
    have hmerge := h.plain_merged hplain hw hsplit hq hlast (h.shortened hsplit hmerged)
    exact ⟨hmerge.makes, hmerge.files⟩

/-- A batch that leaves the lock leaves a plain log. -/
theorem PlainLog.leaves (h : s.PlainLog t pre) {r : Merger × List ℕ} (hr : Leaves t dev pre s r) :
    r.1.PlainLog t (pre ++ r.2.map s.view) := by
  refine ⟨?_, fun x hx => ?_⟩
  · rw [List.append_assoc, hr.shown_eq]
    exact h.makes
  · have hsame : (r.1.heap x).action = (s.heap x).action := by
      rw [← action_view, hr.view_eq, action_view]
    rw [VfsEvent.OfFolder, hsame]
    exact h.files x (hr.events_sub hx)

end Merger

/-! ## Runs -/

namespace Monitor

variable {s s' : Monitor} {a : Act} {t : FileTree} {dev : ℕ}

/-- The event that is passed is no folder's, and no rename that replaces a file. -/
def ReplacesNone (t : FileTree) (s : Monitor) : Act → Prop
  | .pass _ event => (replay t s.happened).Plain event
  | _ => True

instance (t : FileTree) (s : Monitor) : ∀ a, Decidable (ReplacesNone t s a)
  | .pass _ event => inferInstanceAs (Decidable ((replay t s.happened).Plain event))
  | .expire | .send _ | .finish _ | .clearup => inferInstanceAs (Decidable True)

/-- The steps of `TreeOk`, with a condition on what happens in place of the one on the merges. -/
structure PlainOk (t : FileTree) (dev : ℕ) (s : Monitor) (a : Act) : Prop where
  history : s.HistoryOk t dev a
  plain : s.ReplacesNone t a
  inTurn : s.InTurn a

instance (t : FileTree) (dev : ℕ) (s : Monitor) (a : Act) : Decidable (PlainOk t dev s a) :=
  decidable_of_iff (s.HistoryOk t dev a ∧ s.ReplacesNone t a ∧ s.InTurn a)
    ⟨fun h => ⟨h.1, h.2.1, h.2.2⟩, fun h => ⟨h.1, h.2, h.3⟩⟩

/-- What holds in a run in which no file is replaced. -/
structure DeliversPlain (t : FileTree) (dev : ℕ) (s : Monitor) : Prop where
  delivers : s.Delivers t dev
  plain : s.merger.PlainLog t s.handed

namespace DeliversPlain

theorem initial (heap : ℕ → VfsEvent) : (initial heap).DeliversPlain t dev :=
  ⟨.initial heap, trivial, by simp [Monitor.initial]⟩

/-- Every merge of such a run is right. -/
theorem treeOk (h : s.DeliversPlain t dev) (hok : s.PlainOk t dev a) (hstep : s.step a = some s') :
    s.TreeOk t dev a := by
  refine ⟨hok.history, ?_, hok.inTurn⟩
  cases a with
  | pass p event =>
    obtain ⟨hcookie, hdev, hlegal⟩ := hok.history
    rw [Monitor.step] at hstep
    split at hstep
    · simp at hstep
    rename_i hp
    have hcomes := h.delivers.comes hcookie hdev hlegal hp
    exact h.delivers.undoesOk_iff_mergesRight.mpr (h.plain.mergesRight hcomes)
  | _ => trivial

theorem of_sameLog (h : s.DeliversPlain t dev) (hdelivers : s'.Delivers t dev) (hsame : SameLog s s') :
    s'.DeliversPlain t dev := by
  refine ⟨hdelivers, ?_, ?_⟩
  · rw [hsame.handed_eq, Merger.shown, hsame.events_eq, hsame.view_eq]
    exact h.plain.makes
  · rw [hsame.events_eq, hsame.heap_eq]
    exact h.plain.files

/-- One step keeps it. -/
theorem step (h : s.DeliversPlain t dev) (hok : s.PlainOk t dev a) (hstep : s.step a = some s') :
    s'.DeliversPlain t dev := by
  have htree := h.treeOk hok hstep
  have hdelivers := h.delivers.step htree hstep
  cases a with
  | pass p event =>
    refine ⟨hdelivers, ?_⟩
    rw [Monitor.step] at hstep
    split at hstep
    · simp at hstep
    rename_i hp
    obtain rfl := Option.some.inj hstep
    obtain ⟨⟨hcookie, hdev, hlegal⟩, hfiles, -⟩ := hok
    have hcomes := h.delivers.comes hcookie hdev hlegal hp
    obtain ⟨htidy, -⟩ := hcomes.absorb (h.delivers.undoesOk_iff_mergesRight.mp htree.merges)
    obtain ⟨hr, -, hview⟩ := h.delivers.leaves_pass hcomes hp htidy
    have hplain := (hcomes.absorb_plain h.plain hfiles).leaves hr
    rw [← handed_leave hview hr.view_eq] at hplain
    exact hplain
  | expire =>
    refine ⟨hdelivers, ?_⟩
    rw [Monitor.step] at hstep
    split at hstep
    · obtain rfl := Option.some.inj hstep
      have htidy : ({ s.merger with pending := false } : Merger).Tidy t dev s.handed :=
        h.delivers.tidy.congr rfl rfl
      have hr := htidy.leaves (h.delivers.kept.sound.congr rfl rfl rfl rfl) h.delivers.quit_eq
      have hbefore : ({ s.merger with pending := false } : Merger).PlainLog t s.handed := ⟨h.plain.makes, h.plain.files⟩
      have hplain := hbefore.leaves hr
      rw [← handed_leave (fun x _ => hr.view_eq x) hr.view_eq] at hplain
      exact hplain
    · simp at hstep
  | send i => exact h.of_sameLog hdelivers (sameLog_send hok.inTurn hstep)
  | finish i => exact h.of_sameLog hdelivers (sameLog_finish hstep)
  | clearup => exact hok.history.elim

end DeliversPlain

/-- A run in which no file is replaced is one in which every merge is right. -/
theorem Reachable.treeOk (h : Reachable (PlainOk t dev) s) : s.DeliversPlain t dev ∧ Reachable (TreeOk t dev) s := by
  induction h with
  | initial heap => exact ⟨.initial heap, .initial heap⟩
  | step _ hok hstep ih => exact ⟨ih.1.step hok hstep, .step ih.2 (ih.1.treeOk hok hstep) hstep⟩

/-- However the timer and a full buffer cut a history in which files are created, deleted and renamed to new paths,
nothing about the merges has to be asked for: if the batches are sent one behind the other and the cookies of renames
are their own, what has been sent, what is on its way and what is buffered make of the first tree the tree that there
is, and so does what has been sent when nothing is left. -/
theorem reachable_tree_plain (h : Reachable (PlainOk t dev) s) (hdone : (replay t s.happened).waiting = none) :
    (replay t (s.handed ++ s.merger.shown)).tree = (replay t s.happened).tree ∧
      (s.merger.events = [] → s.outgoing.flatten = [] →
        (replay t (s.sent.map Prod.snd)).tree = (replay t s.happened).tree) := by
  have htree := h.treeOk.1.delivers.tree_eq hdone
  exact ⟨htree, fun hevents hout => (tree_handed s hevents hout).symm.trans htree⟩

/-- The two halves of a rename of `/a` to `/c`, with the timer between them. -/
def sampleHalves : List Act :=
  [.pass 0 (fileEvent .renameFromFile 7 [47, 97]), .expire, .pass 1 (fileEvent .renameToFile 7 [47, 99]),
    .pass 2 (fileEvent .newFile 0 [47, 97]), .expire, .send 0, .finish 0]

theorem reachable_tree_plain_sample :
    ∃ s, runs (PlainOk sampleTree 1) (initial fun _ => fileEvent .newFile 0 []) sampleHalves = some s ∧
      s.sent.map (fun pe => (pe.2.action, pe.2.path)) = [(.newFile, [47, 99])] ∧
      (replay sampleTree (s.sent.map Prod.snd)).tree = (replay sampleTree s.happened).tree := by
  obtain ⟨s, hs⟩ : ∃ s, runs (PlainOk sampleTree 1) (initial fun _ => fileEvent .newFile 0 []) sampleHalves =
      some s := ⟨_, rfl⟩
  obtain rfl := Option.some.inj hs
  exact ⟨_, hs, rfl, (reachable_tree_plain (.runs (.initial _) hs) rfl).2 rfl rfl⟩

end Monitor

end DeepinAnything.EventMerge
