import DeepinAnything.Server.LateEvents

/-!
# Events that an index has already

When operations take place while an index is built, the index has some of them in it before their events are handled,
namely those to which the build was still to come (`ahead`). To handle the event of a creation or a deletion again does
no harm, since the last operation at a path decides what stands there. A rename must not be among those that the index
has, and must be apart from them.
-/

namespace DeepinAnything.Server

open ByteMem OrderedForest OrderedForest.Forest

/-! ## Operations on files -/

namespace FileOp

/-- The paths of an operation. -/
def paths : FileOp → List (List Bytes)
  | create q _ | delete q _ => [q]
  | rename src dst _ => [src, dst]

/-- A rename. -/
def Moves : FileOp → Prop
  | rename .. => True
  | _ => False

/-- The operation is at the path or above it. -/
def Meets (op : FileOp) (q : List Bytes) : Prop := ∃ p ∈ op.paths, p <+: q

variable {fs : Files} {op : FileOp} {q : List Bytes} {K : Shape}

theorem apply_delete (fs : Files) (q : List Bytes) (kind : FileKind) (p : List Bytes) :
    (delete q kind).apply fs p = if q <+: p then none else fs p := rfl

theorem apply_rename (fs : Files) (src dst : List Bytes) (kind : FileKind) (p : List Bytes) :
    (rename src dst kind).apply fs p =
      if dst <+: p then fs (src ++ p.drop dst.length) else if src <+: p then none else fs p := rfl

@[simp]
theorem meets_create {kind : FileKind} {p : List Bytes} : (create p kind).Meets q ↔ p <+: q := by
  simp [Meets, paths]

@[simp]
theorem meets_delete {kind : FileKind} {p : List Bytes} : (delete p kind).Meets q ↔ p <+: q := by
  simp [Meets, paths]

@[simp]
theorem meets_rename {kind : FileKind} {src dst : List Bytes} :
    (rename src dst kind).Meets q ↔ src <+: q ∨ dst <+: q := by
  simp [Meets, paths]

theorem Meets.mono {p : List Bytes} (h : op.Meets p) (hp : p <+: q) : op.Meets q :=
  let ⟨r, hr, hpre⟩ := h
  ⟨r, hr, hpre.trans hp⟩

theorem paths_of_not_moves (h : ¬ op.Moves) (hq : q ∈ op.paths) : op.paths = [q] := by
  cases op with
  | create p kind => rw [paths, List.mem_singleton.mp hq]
  | delete p kind => rw [paths, List.mem_singleton.mp hq]
  | rename src dst kind => exact absurd trivial h

/-- An operation changes nothing but what stands at its paths or below them. -/
theorem apply_of_not_meets (h : ¬ op.Meets q) : op.apply fs q = fs q := by
  cases op with
  | create p kind =>
    refine Function.update_of_ne ?_ _ _
    rintro rfl
    exact h (meets_create.mpr List.prefix_rfl)
  | delete p kind => exact if_neg (mt meets_delete.mpr h)
  | rename src dst kind =>
    obtain ⟨hsrc, hdst⟩ := not_or.mp (mt meets_rename.mpr h)
    rw [apply_rename, if_neg hdst, if_neg hsrc]

/-- Nor does its event in an index. -/
theorem replay_of_not_meets (h : ¬ op.Meets q) : op.event.replay K q = K q := by
  rw [FileEvent.replay]
  split
  · cases op with
    | create p kind =>
      refine Function.update_of_ne ?_ _ _
      rintro rfl
      exact h (meets_create.mpr List.prefix_rfl)
    | delete p kind => exact if_neg fun hpre => h (meets_delete.mpr hpre.2)
    | rename src dst kind =>
      obtain ⟨hsrc, hdst⟩ := not_or.mp (mt meets_rename.mpr h)
      exact (if_neg hdst).trans (if_neg hsrc)
  · rfl

/-- What is new or moved lies in a directory. -/
theorem Legal.closed (h : op.Legal fs) (hc : fs.Closed) : (op.apply fs).Closed := by
  cases op with
  | create q kind =>
    obtain ⟨hnew, hparent⟩ := h
    have hne : ∀ p, fs p = some .dir → p ≠ q := by
      rintro p hp rfl
      rw [hnew] at hp
      cases hp
    refine ⟨?_, fun p x hthere => ?_⟩
    · rw [apply, Function.update_of_ne (hne [] hc.root)]
      exact hc.root
    · have hdir : fs p = some .dir := by
        rw [apply, Function.update_apply] at hthere
        split at hthere
        · rename_i heq
          rw [← heq, List.dropLast_concat] at hparent
          exact hparent
        · exact hc.parent p x hthere
      rw [apply, Function.update_of_ne (hne p hdir), hdir]
  | delete q kind =>
    refine ⟨?_, fun p x hthere => ?_⟩
    · rw [apply_delete, if_neg fun hpre => h.1 (List.prefix_nil.mp hpre)]
      exact hc.root
    · rw [apply_delete] at hthere ⊢
      split at hthere
      · cases hthere
      · rename_i hnot
        rw [if_neg fun hpre => hnot (hpre.trans (List.prefix_append p [x]))]
        exact hc.parent p x hthere
  | rename src dst kind =>
    obtain ⟨hne, hout, hsrc, hparent, -⟩ := h
    have hsrc_ne : src ≠ [] := by
      rintro rfl
      exact hout List.nil_prefix
    refine ⟨?_, fun p x hthere => ?_⟩
    · rw [apply_rename, if_neg fun hpre => hne (List.prefix_nil.mp hpre),
        if_neg fun hpre => hsrc_ne (List.prefix_nil.mp hpre)]
      exact hc.root
    · rw [apply_rename] at hthere ⊢
      by_cases hdst : dst <+: p
      · -- below the new name, as it was below the old one
        rw [if_pos (hdst.trans (List.prefix_append p [x])), List.drop_append_of_le_length hdst.length_le,
          ← List.append_assoc] at hthere
        rw [if_pos hdst]
        exact hc.parent _ x hthere
      · rw [if_neg hdst]
        by_cases hnew : dst <+: p ++ [x]
        · obtain rfl : dst = p ++ [x] := (List.prefix_concat_iff.mp hnew).resolve_right hdst
          rw [List.dropLast_concat] at hparent
          rw [if_neg fun hpre => hout (hpre.trans (List.prefix_append p [x])), hparent]
        · rw [if_neg hnew] at hthere
          split at hthere
          · cases hthere
          · rename_i hold
            rw [if_neg fun hpre => hold (hpre.trans (List.prefix_append p [x]))]
            exact hc.parent p x hthere

/-- Below what is created there is nothing, nor below what is deleted. -/
theorem Legal.none_below (h : op.Legal fs) (hc : fs.Closed) (hop : ¬ op.Moves) {p : List Bytes} (hp : p ∈ op.paths)
    (hpre : p <+: q) (hne : q ≠ p) : fs q = none := by
  obtain ⟨r, rfl⟩ := hpre
  obtain ⟨x, r, rfl⟩ := List.exists_cons_of_ne_nil (show r ≠ [] by rintro rfl; exact hne (List.append_nil p))
  by_contra hthere
  rw [← List.singleton_append, ← List.append_assoc] at hthere
  have hchild : (fs (p ++ [x])).isSome := by
    by_cases hr : r = []
    · rw [hr, List.append_nil] at hthere
      exact Option.isSome_iff_ne_none.mpr hthere
    · rw [hc.above hr (Option.isSome_iff_ne_none.mpr hthere)]
      rfl
  cases op with
  | create q kind =>
    obtain rfl := List.mem_singleton.mp hp
    have hdir := hc.parent _ x hchild
    rw [h.1] at hdir
    cases hdir
  | delete q kind =>
    obtain rfl := List.mem_singleton.mp hp
    rw [h.2.2 x] at hchild
    cases hchild
  | rename src dst kind => exact hop trivial

/-- Creation and deletion change nothing but what stands at their path. -/
theorem Legal.apply_of_not_path (h : op.Legal fs) (hc : fs.Closed) (hop : ¬ op.Moves) (hq : q ∉ op.paths) :
    op.apply fs q = fs q := by
  cases op with
  | create p kind => exact Function.update_of_ne (by simpa [paths] using hq) _ _
  | delete p kind =>
    rw [apply_delete]
    split
    · rename_i hpre
      rw [h.none_below hc hop (by simp [paths]) hpre (by simpa [paths] using hq)]
    · rfl
  | rename src dst kind => exact absurd trivial hop

end FileOp

/-! ## What a build finds -/

/-- An operation whose event is queued, and whether a build was still to come to the directories of its paths. The
latter is no part of the system. -/
structure Queued where
  op : FileOp
  ahead : Bool

/-- The operations, one behind the other, make the files `fs'` of the files `fs`. -/
def Makes : Files → List Queued → Files → Prop
  | fs, [], fs' => fs = fs'
  | fs, o :: os, fs' => o.op.Legal fs ∧ Makes (o.op.apply fs) os fs'

/-- An operation that the build was still to come to is at the path or above it. -/
def Sees (os : List Queued) (q : List Bytes) : Prop := ∃ o ∈ os, o.ahead = true ∧ o.op.Meets q

open Classical in
/-- What a build finds at the path: what is there behind the last of the operations that it was still to come to. -/
noncomputable def shown : Files → List Queued → Files
  | fs, [], q => fs q
  | fs, o :: os, q => if Sees (o :: os) q then shown (o.op.apply fs) os q else fs q

section Shown

variable {fs now : Files} {o : Queued} {os : List Queued} {q : List Bytes}

theorem Makes.concat (h : Makes fs os now) (ho : o.op.Legal now) :
    Makes fs (os ++ [o]) (o.op.apply now) := by
  induction os generalizing fs with
  | nil =>
    obtain rfl : fs = now := h
    exact ⟨ho, rfl⟩
  | cons a os ih => exact ⟨h.1, ih h.2⟩

theorem Makes.closed (h : Makes fs os now) (hc : fs.Closed) : now.Closed := by
  induction os generalizing fs with
  | nil =>
    obtain rfl : fs = now := h
    exact hc
  | cons a os ih => exact ih h.2 (h.1.closed hc)

theorem Sees.mono {p : List Bytes} (h : Sees os p) (hp : p <+: q) : Sees os q :=
  let ⟨o, ho, hahead, hmeets⟩ := h
  ⟨o, ho, hahead, hmeets.mono hp⟩

@[simp]
theorem not_sees_nil : ¬ Sees [] q := by
  simp [Sees]

theorem sees_cons : Sees (o :: os) q ↔ o.ahead = true ∧ o.op.Meets q ∨ Sees os q := by
  simp [Sees]

theorem sees_append {os' : List Queued} : Sees (os ++ os') q ↔ Sees os q ∨ Sees os' q := by
  simp [Sees, or_and_right, exists_or]

theorem shown_of_not_sees (h : ¬ Sees os q) : shown fs os q = fs q := by
  cases os with
  | nil => rfl
  | cons o os => exact if_neg h

/-- The first operation, if it is seen or elsewhere, may have taken place before. -/
theorem shown_cons (h : o.op.Meets q → Sees (o :: os) q) : shown fs (o :: os) q = shown (o.op.apply fs) os q := by
  rw [shown]
  split
  · rfl
  · rename_i hnot
    rw [shown_of_not_sees fun hsees => hnot (sees_cons.mpr (.inr hsees)), FileOp.apply_of_not_meets (mt h hnot)]

open Classical in
theorem shown_concat (h : Makes fs os now) : shown fs (os ++ [o]) q =
    if o.ahead = true ∧ o.op.Meets q then o.op.apply now q else shown fs os q := by
  induction os generalizing fs with
  | nil =>
    obtain rfl : fs = now := h
    simp only [List.nil_append, shown, sees_cons, not_sees_nil, or_false]
  | cons a os ih =>
    simp only [List.cons_append, shown, ih h.2, sees_cons, sees_append, not_sees_nil, or_false]
    by_cases ho : o.ahead = true ∧ o.op.Meets q
    · simp only [ho, and_self, or_true, if_true]
    · simp only [ho, or_false, if_false]

theorem shown_nil (h : Makes fs os now) (hc : fs.Closed) : shown fs os [] = some .dir := by
  induction os generalizing fs with
  | nil => exact hc.root
  | cons o os ih =>
    rw [shown]
    split
    · exact ih h.2 (h.1.closed hc)
    · exact hc.root

end Shown

/-! ## Handling the events -/

/-- The index has at the path what the build has found or, if more of what it has found is to come, what there is
before that, or nothing. -/
def CatchesAt (K : Shape) (fs : Files) (os : List Queued) (q : List Bytes) : Prop :=
  K q = (shown fs os).shape q ∨ Sees os q ∧ (K q = none ∨ K q = fs.shape q)

/-- The operations make up what is missing in the index. -/
def Catches (K : Shape) (fs : Files) (os : List Queued) : Prop := ∀ q, CatchesAt K fs os q

/-- A rename that the build was not to come to is apart from what it sees afterwards. -/
def Apart (o o' : Queued) : Prop :=
  o.op.Moves → o.ahead = false → o'.ahead = true → ∀ p ∈ o.op.paths, ∀ p' ∈ o'.op.paths, ¬ p <+: p' ∧ ¬ p' <+: p

/-- The index when all events have been handled. -/
noncomputable def replayAll (K : Shape) (ops : List FileOp) : Shape := ops.foldl (fun K op => op.event.replay K) K

theorem replayAll_concat (K : Shape) (ops : List FileOp) (op : FileOp) :
    replayAll K (ops ++ [op]) = op.event.replay (replayAll K ops) := by
  simp [replayAll]

namespace Catches

variable {K : Shape} {fs now : Files} {o : Queued} {os : List Queued} {q : List Bytes}

theorem of_not_sees (h : Catches K fs os) (hq : ¬ Sees os q) : K q = fs.shape q := by
  rcases h q with heq | ⟨hsees, -⟩
  · rw [heq, Files.shape, shown_of_not_sees hq, Files.shape]
  · exact absurd hsees hq

/-- Where nothing was before the first operation there is nothing yet, or what it comes to. -/
theorem of_none (h : Catches K fs (o :: os)) (hq : fs q = none) :
    K q = none ∨ K q = (shown (o.op.apply fs) os).shape q := by
  rcases h q with heq | ⟨-, heq | heq⟩
  · rw [heq, Files.shape, Files.shape, shown]
    split
    · exact .inr rfl
    · rw [hq]
      exact .inl rfl
  · exact .inl heq
  · rw [heq, Files.shape, hq]
    exact .inl rfl

/-- The first event is handled, at the paths where its operation makes no difference. -/
theorem replay_of_not_meets (h : Catches K fs (o :: os)) (hq : ¬ o.op.Meets q) :
    CatchesAt (o.op.event.replay K) (o.op.apply fs) os q := by
  rw [CatchesAt, FileOp.replay_of_not_meets hq, Files.shape, ← shown_cons fun hmeets => absurd hmeets hq, Files.shape,
    FileOp.apply_of_not_meets hq]
  refine (h q).imp_right fun hlater => ⟨?_, hlater.2⟩
  exact (sees_cons.mp hlater.1).resolve_left fun ho => hq ho.2

/-- A path at which the index has what is there is as it should be. -/
theorem at_of_eq (h : K q = fs.shape q) : CatchesAt K fs os q := by
  by_cases hsees : Sees os q
  · exact .inr ⟨hsees, .inr h⟩
  · rw [CatchesAt, h, Files.shape, Files.shape, shown_of_not_sees hsees]
    exact .inl rfl

/-- So is one at which it has nothing, or what will be there, if there is nothing or more is to come. -/
theorem at_of_none (h : K q = none ∨ K q = (shown fs os).shape q) (hnone : Sees os q ∨ fs q = none) :
    CatchesAt K fs os q := by
  rcases h with heq | heq
  · rcases hnone with hsees | hnone
    · exact .inr ⟨hsees, .inl heq⟩
    · refine at_of_eq ?_
      rw [heq, Files.shape, hnone]
      rfl
  · exact .inl heq

/-- The event of a creation is handled. Where the directory is missing it is still to be seen. -/
theorem create {p : List Bytes} {kind : FileKind} {ahead : Bool}
    (h : Catches K fs (⟨.create p kind, ahead⟩ :: os)) (hc : fs.Closed) (hlegal : (FileOp.create p kind).Legal fs) :
    Catches ((FileOp.create p kind).event.replay K) ((FileOp.create p kind).apply fs) os := by
  intro q
  by_cases hq : p <+: q
  swap
  · exact h.replay_of_not_meets (mt FileOp.meets_create.mp hq)
  by_cases heq : q = p
  · subst heq
    by_cases hpossible : (FileOp.create q kind).event.Possible K
    · refine at_of_eq ?_
      rw [FileEvent.replay_of_possible hpossible, hlegal.shape_apply]
      show Function.update K q _ q = Function.update fs.shape q _ q
      rw [Function.update_self, Function.update_self]
    · rw [FileEvent.replay_of_not_possible hpossible]
      by_cases hthere : K q = none
      · refine at_of_none (.inl hthere) (.inl ?_)
        by_contra hsees
        have hne : q ≠ [] := by
          rintro rfl
          exact absurd (hlegal.1.symm.trans hc.root) (by simp)
        have hparent : ¬ Sees (⟨.create q kind, ahead⟩ :: os) q.dropLast := by
          rw [sees_cons, FileOp.meets_create]
          rintro (⟨-, hpre⟩ | hparent)
          · have hlen := hpre.length_le
            have hpos := List.length_pos_of_ne_nil hne
            rw [List.length_dropLast] at hlen
            omega
          · exact hsees (hparent.mono (List.dropLast_prefix q))
        refine hpossible ⟨hthere, ?_⟩
        rw [h.of_not_sees hparent, Files.shape, hlegal.2]
        rfl
      · exact .inl ((h.of_none hlegal.1).resolve_left hthere)
  · have hnone := hlegal.none_below hc id (List.mem_singleton_self p) hq heq
    have hsame : (FileOp.create p kind).event.replay K q = K q := by
      rw [FileEvent.replay]
      split
      · exact Function.update_of_ne heq _ _
      · rfl
    refine at_of_none ?_ (.inr ((Function.update_of_ne heq _ _).trans hnone))
    rw [hsame]
    exact h.of_none hnone

/-- The event of a deletion is handled. -/
theorem delete {p : List Bytes} {kind : FileKind} {ahead : Bool}
    (h : Catches K fs (⟨.delete p kind, ahead⟩ :: os)) (hc : fs.Closed) (hlegal : (FileOp.delete p kind).Legal fs) :
    Catches ((FileOp.delete p kind).event.replay K) ((FileOp.delete p kind).apply fs) os := by
  intro q
  by_cases hq : p <+: q
  swap
  · exact h.replay_of_not_meets (mt FileOp.meets_delete.mp hq)
  refine at_of_none ?_ (.inr (if_pos hq))
  by_cases hpossible : (FileOp.delete p kind).event.Possible K
  · rw [FileEvent.replay_of_possible hpossible]
    exact .inl (if_pos ⟨fun hnil => hlegal.1 (List.prefix_nil.mp (hnil ▸ hq)), hq⟩)
  · rw [FileEvent.replay_of_not_possible hpossible]
    by_cases heq : q = p
    · exact .inl (heq ▸ Option.not_isSome_iff_eq_none.mp hpossible)
    · exact h.of_none (hlegal.none_below hc id (List.mem_singleton_self p) hq heq)

/-- The event of a rename is handled, of which the index has nothing. -/
theorem rename {src dst : List Bytes} {kind : FileKind} (h : Catches K fs (⟨.rename src dst kind, false⟩ :: os))
    (hlegal : (FileOp.rename src dst kind).Legal fs) (hapart : ∀ o ∈ os, Apart ⟨.rename src dst kind, false⟩ o) :
    Catches ((FileOp.rename src dst kind).event.replay K) ((FileOp.rename src dst kind).apply fs) os := by
  have hunseen : ∀ p ∈ [src, dst], ∀ q, p <+: q ∨ q <+: p → ¬ Sees os q := by
    rintro p hp q hq ⟨o, ho, hahead, p', hp', hpre⟩
    obtain ⟨hbelow, habove⟩ := hapart o ho trivial rfl hahead p hp p' hp'
    rcases hq with hq | hq
    · exact (List.prefix_or_prefix_of_prefix hq hpre).elim hbelow habove
    · exact habove (hpre.trans hq)
  have hsame : ∀ p ∈ [src, dst], ∀ q, p <+: q ∨ q <+: p → K q = fs.shape q := fun p hp q hq =>
    h.of_not_sees fun hsees => hunseen p hp q hq ((sees_cons.mp hsees).resolve_left fun ho => nomatch ho.1)
  have hsrc : K src = fs.shape src := hsame src (by simp) src (.inl List.prefix_rfl)
  have hdst : K dst = fs.shape dst := hsame dst (by simp) dst (.inl List.prefix_rfl)
  have hpossible : (FileOp.rename src dst kind).event.Possible K := by
    obtain ⟨hsource, hne, hout, hparent, hreplaced⟩ := hlegal.possible
    refine ⟨by rwa [hsrc], hne, hout, ?_, ?_⟩
    · rwa [hsame dst (by simp) _ (.inr (List.dropLast_prefix dst))]
    · rw [hdst, hsrc]
      intro hthere
      refine (hreplaced hthere).imp_right fun hempty x => ?_
      rw [hsame dst (by simp) _ (.inl (List.prefix_append dst [x])), hempty x]
  intro q
  by_cases hq : (FileOp.rename src dst kind).Meets q
  swap
  · exact h.replay_of_not_meets hq
  refine at_of_eq ?_
  rw [FileEvent.replay_of_possible hpossible, hlegal.shape_apply]
  show (if dst <+: q then K (src ++ q.drop dst.length) else if src <+: q then none else K q) =
    if dst <+: q then fs.shape (src ++ q.drop dst.length) else if src <+: q then none else fs.shape q
  rw [hsame src (by simp) _ (.inl (List.prefix_append _ _))]
  by_cases hpre : dst <+: q
  · rw [if_pos hpre, if_pos hpre]
  · rw [if_neg hpre, if_neg hpre, if_pos ((FileOp.meets_rename.mp hq).resolve_right hpre),
      if_pos ((FileOp.meets_rename.mp hq).resolve_right hpre)]

/-- When all events have been handled the index is one of the files. -/
theorem replayAll_eq (h : Catches K fs os) (hc : fs.Closed) (hmakes : Makes fs os now)
    (hmoves : ∀ o ∈ os, o.op.Moves → o.ahead = false) (hapart : os.Pairwise Apart) :
    replayAll K (os.map Queued.op) = now.shape := by
  induction os generalizing K fs with
  | nil =>
    obtain rfl : fs = now := hmakes
    exact funext fun q => h.of_not_sees not_sees_nil
  | cons o os ih =>
    obtain ⟨hlegal, hrest⟩ := hmakes
    obtain ⟨hfirst, hapart⟩ := List.pairwise_cons.mp hapart
    have hstep : Catches (o.op.event.replay K) (o.op.apply fs) os := by
      obtain ⟨op, ahead⟩ := o
      cases op with
      | create p kind => exact h.create hc hlegal
      | delete p kind => exact h.delete hc hlegal
      | rename src dst kind =>
        obtain rfl : ahead = false := hmoves _ List.mem_cons_self trivial
        exact h.rename hlegal hfirst
    exact ih hstep (hlegal.closed hc) hrest (fun o' ho' => hmoves o' (List.mem_cons_of_mem o ho')) hapart

end Catches

end DeepinAnything.Server
