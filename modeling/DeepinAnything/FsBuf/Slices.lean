import DeepinAnything.FsBuf.RulePages
import DeepinAnything.FsBuf.TreeEnd

/-!
# Putting the slices together (`parallelsearch_files`)

With a limit each worker stops when it alone has found as many results as wanted, and only then says where
it has stopped. The loop that puts the results together takes the place for the next search from the slice
in which the limit is reached.
-/

namespace DeepinAnything

open ByteMem Paging

variable {b : FsBuf}

/-! ## Slices -/

/-- The slices come one after the other, and none ends before it starts. -/
theorem FsBuf.slicesLoop_ordered (numItemsPerThread minOff left startPos endPos : ℕ) :
    (∀ part ∈ (b.slicesLoop numItemsPerThread minOff left startPos endPos).1, startPos ≤ part.1) ∧
    (b.slicesLoop numItemsPerThread minOff left startPos endPos).1.Pairwise fun p p' => p.2 < p'.1 := by
  induction left generalizing startPos endPos with
  | zero => simp [slicesLoop]
  | succ left ih =>
    rw [slicesLoop]
    simp only
    generalize hstop : (if left = 0 then minOff else endPos) = stop
    generalize hend : (if u32 (endPos + numItemsPerThread) > minOff then minOff
      else b.nextName (u32 (endPos + numItemsPerThread))) = nextEnd
    obtain ⟨hstart, hpair⟩ := ih (b.nextName endPos) nextEnd
    have hlt := b.lt_nextName endPos
    by_cases herr : stop < startPos
    · rw [if_pos herr]
      simp
    rw [if_neg herr]
    by_cases hlast : b.nextName endPos ≥ nextEnd
    · rw [if_pos hlast]
      simp
    rw [if_neg hlast]
    refine ⟨fun part hpart => ?_, List.pairwise_cons.mpr ⟨fun part hpart => ?_, hpair⟩⟩
    · rcases List.mem_cons.mp hpart with rfl | hpart
      · exact le_rfl
      · by_cases hleft : left = 0
        · simp [hleft, slicesLoop] at hpart
        · rw [if_neg hleft] at hstop
          have := hstart part hpart
          omega
    · by_cases hleft : left = 0
      · simp [hleft, slicesLoop] at hpart
      · rw [if_neg hleft] at hstop
        have := hstart part hpart
        simp only
        omega

theorem FsBuf.slices_ordered (b : FsBuf) (poolThreads startOff minOff count : ℕ) :
    (∀ part ∈ (b.slices poolThreads startOff minOff count).1, startOff ≤ part.1) ∧
    (b.slices poolThreads startOff minOff count).1.Pairwise fun p p' => p.2 < p'.1 :=
  slicesLoop_ordered _ _ _ _ _

/-! ## Workers -/

/-- What a worker leaves that searches the slice `part` for `size` matches: it has saved them all, and the
place behind the last one if it has found `size`. -/
structure Worker (b : FsBuf) (size : ℕ) (part : ℕ × ℕ) (h : Hits) : Prop where
  count : h.numResults = h.results.length
  le_size : h.results.length ≤ size
  startPos : h.startPos =
    if h.results.length < size then part.1 else b.nextName (h.results.getLast?.getD 0)

/-- A worker has gone forward through its slice. -/
structure Forward (part : ℕ × ℕ) (h : Hits) : Prop where
  sorted : h.results.Pairwise (· < ·)
  range : ∀ o ∈ h.results, part.1 ≤ o ∧ o < part.2

/-- A worker that has gone forward through its slice and says where it has stopped. -/
structure Searched (b : FsBuf) (size : ℕ) (part : ℕ × ℕ) (h : Hits) : Prop extends
  Worker b size part h, Forward part h

/-- All matches that the workers have found, in the order of the slices. -/
def found (hits : List Hits) : List ℕ := hits.flatMap Hits.results

/-- The slice that brings the total to the limit brings it to just the limit, and slices before it have
found something. -/
def ExactFill (size : ℕ) : ℕ → List Hits → Prop
  | _, [] => False
  | total, h :: rest =>
    if size ≤ total + h.results.length then total + h.results.length = size ∧ 0 < total
    else ExactFill size (total + h.results.length) rest

/-- One turn of a thread with rules at a place `nameOff`, with the jumps that it has noted: where it goes on,
and the jumps that it has then. -/
inductive RuleTurn (b : FsBuf) (ruleVal : ℕ) (exRule : List SearchRule) (nameOff : ℕ) (jumps : List JumpOff) :
    ℕ → List JumpOff → Prop
  | parent (hname : b.strAt nameOff = []) : RuleTurn b ruleVal exRule nameOff jumps (b.nextName nameOff) jumps
  | jump {stop : ℕ} {jumps' : List JumpOff} (hname : b.strAt nameOff ≠ [])
    (hjump : shouldJump jumps nameOff = some (stop, jumps')) : RuleTurn b ruleVal exRule nameOff jumps stop jumps'
  | skip (hname : b.strAt nameOff ≠ []) (hjump : shouldJump jumps nameOff = none)
    (hskip : b.skipped ruleVal exRule nameOff = some true) :
    RuleTurn b ruleVal exRule nameOff jumps (b.nextName nameOff)
      (jumps ++ [⟨b.getKidsOffset nameOff, b.getTreeEndOffset (b.getKidsOffset nameOff)⟩])
  | compare (hname : b.strAt nameOff ≠ []) (hjump : shouldJump jumps nameOff = none)
    (hskip : b.skipped ruleVal exRule nameOff = some false) :
    RuleTurn b ruleVal exRule nameOff jumps (b.nextName nameOff) jumps

namespace FsBuf

/-- What the turns of a thread with rules keep, and its results, holds where it stops: at the end of its
slice, or behind the result with which the limit is reached. -/
theorem rulesearchThreadLoop_run {comparator : Bytes → Bool} {ruleVal : ℕ} {inRule exRule : List SearchRule}
    {reqResults endPos : ℕ} {maxCount : ℤ} {Q : ℕ → List JumpOff → Hits → Prop}
    (hturn : ∀ cur jumps h next jumps', cur < endPos → ¬ h.reached maxCount → Q cur jumps h →
      RuleTurn b ruleVal exRule cur jumps next jumps' → Q next jumps' h)
    (hhit : ∀ cur jumps h, cur < endPos → ¬ h.reached maxCount → Q cur jumps h → b.strAt cur ≠ [] →
      shouldJump jumps cur = none → b.skipped ruleVal exRule cur = some false → comparator (b.strAt cur) →
      Q (b.nextName cur) jumps (h.add reqResults cur))
    {fuel cur : ℕ} {jumps : List JumpOff} {h hits : Hits} (hQ : Q cur jumps h) (hmore : ¬ h.reached maxCount)
    (hloop : b.rulesearchThreadLoop comparator ruleVal inRule exRule reqResults endPos maxCount fuel cur jumps h =
      some hits) :
    ∃ cur jumps h, Q cur jumps h ∧
      (¬ h.reached maxCount ∧ hits = h ∨ h.reached maxCount ∧ hits = { h with startPos := cur }) := by
  induction fuel generalizing cur jumps h with
  | zero => cases hloop
  | succ fuel ih =>
    rw [rulesearchThreadLoop] at hloop
    by_cases hend : cur < endPos
    swap
    · rw [if_neg hend] at hloop
      exact ⟨cur, jumps, h, hQ, .inl ⟨hmore, (Option.some.inj hloop).symm⟩⟩
    rw [if_pos hend] at hloop
    by_cases hname : b.strAt cur = []
    · rw [if_pos hname] at hloop
      exact ih (hturn _ _ _ _ _ hend hmore hQ (.parent hname)) hmore hloop
    rw [if_neg hname] at hloop
    cases hjump : shouldJump jumps cur with
    | some j =>
      rw [hjump] at hloop
      exact ih (hturn _ _ _ _ _ hend hmore hQ (.jump hname hjump)) hmore hloop
    | none =>
      rw [hjump] at hloop
      obtain ⟨skip, hskip, hloop⟩ := Option.bind_eq_some_iff.mp hloop
      cases skip with
      | true => exact ih (hturn _ _ _ _ _ hend hmore hQ (.skip hname hjump hskip)) hmore hloop
      | false =>
        obtain ⟨hit, hwanted, hloop⟩ := Option.bind_eq_some_iff.mp hloop
        -- what the turn leaves, with a result or without
        have hQ' : Q (b.nextName cur) jumps (if hit then h.add reqResults cur else h) := by
          cases hit with
          | true => exact hhit _ _ _ hend hmore hQ hname hjump hskip ((wanted_eq_iff (by simp)).mp hwanted).1
          | false => exact hturn _ _ _ _ _ hend hmore hQ (.compare hname hjump hskip)
        simp only at hloop
        generalize (if hit then h.add reqResults cur else h) = h' at hloop hQ'
        by_cases hlimit : h'.reached maxCount
        · rw [if_pos hlimit] at hloop
          exact ⟨_, jumps, h', hQ', .inr ⟨hlimit, (Option.some.inj hloop).symm⟩⟩
        · rw [if_neg hlimit] at hloop
          exact ih hQ' hlimit hloop

/-- A search that has found nothing has not reached a limit. -/
theorem not_reached_zero (maxCount : ℤ) (startPos : ℕ) : ¬ Hits.reached ⟨0, [], startPos⟩ maxCount := by
  rintro ⟨hpos, hle⟩
  exact absurd (hpos.trans_le hle) (lt_irrefl _)

/-- What the turns of a worker keep holds where it has found something. -/
theorem rulesearchThread_found {comparator : Bytes → Bool} {rules : List SearchRule}
    {P : ℕ → List JumpOff → Prop} {reqResults : ℕ} {part : ℕ × ℕ} {maxCount : ℤ} (hP : P part.1 [])
    (hturn : ∀ cur jumps next jumps', cur < part.2 → P cur jumps →
      RuleTurn b (getRules rules excludeRule).1 (getRules rules excludeRule).2 cur jumps next jumps' → P next jumps')
    {hits : Hits} (hhits : b.rulesearchThread comparator rules reqResults part.1 part.2 maxCount = some hits) :
    ∀ o ∈ hits.results, o < part.2 ∧ (∃ jumps, P o jumps) ∧ b.strAt o ≠ [] ∧ comparator (b.strAt o) := by
  rw [rulesearchThread] at hhits
  split at hhits
  · obtain rfl := Option.some.inj hhits
    exact List.forall_mem_nil _
  obtain ⟨cur, jumps, h, ⟨-, hfound⟩, hstop⟩ := rulesearchThreadLoop_run
    (Q := fun cur jumps h => P cur jumps ∧ ∀ o ∈ h.results, o < part.2 ∧ (∃ jumps, P o jumps) ∧
      b.strAt o ≠ [] ∧ comparator (b.strAt o))
    (fun cur jumps h next jumps' hend _ hQ hto => ⟨hturn _ _ _ _ hend hQ.1 hto, hQ.2⟩)
    (fun cur jumps h hend _ hQ hname hjump hskip hmatch => by
      refine ⟨hturn _ _ _ _ hend hQ.1 (.compare hname hjump hskip), ?_⟩
      rw [Hits.add]
      simp only
      split
      · exact List.forall_mem_append.mpr ⟨hQ.2, List.forall_mem_singleton.mpr ⟨hend, ⟨jumps, hQ.1⟩, hname, hmatch⟩⟩
      · exact hQ.2)
    ⟨hP, List.forall_mem_nil _⟩ (not_reached_zero _ _) hhits
  rcases hstop with ⟨-, rfl⟩ | ⟨-, rfl⟩ <;> exact hfound

end FsBuf

/-! ## Workers go forward -/

/-- A worker in its slice, whatever bytes it reads: its results come in order, and stand before the place that
it has come to and before each jump that it has noted; and no jump that begins in its slice leads back. -/
structure Ahead (part : ℕ × ℕ) (cur : ℕ) (jumps : List JumpOff) (h : Hits) : Prop extends Forward part h where
  le_cur : part.1 ≤ cur
  before_cur : ∀ o ∈ h.results, o < cur
  before_jumps : ∀ j ∈ jumps, ∀ o ∈ h.results, o < j.start
  jumps_forward : ∀ j ∈ jumps, part.1 ≤ j.start ∧ (j.start < part.2 → j.start ≤ j.stop)

namespace Ahead

variable {part : ℕ × ℕ} {cur : ℕ} {jumps : List JumpOff} {h : Hits}

theorem init (part : ℕ × ℕ) : Ahead part part.1 [] ⟨0, [], part.1⟩ :=
  ⟨⟨List.Pairwise.nil, List.forall_mem_nil _⟩, le_rfl, List.forall_mem_nil _, List.forall_mem_nil _,
    List.forall_mem_nil _⟩

theorem next (ha : Ahead part cur jumps h) : Ahead part (b.nextName cur) jumps h :=
  ⟨ha.toForward, ha.le_cur.trans (b.lt_nextName cur).le,
    fun o ho => (ha.before_cur o ho).trans (b.lt_nextName cur), ha.before_jumps, ha.jumps_forward⟩

/-- A jump leads behind the results, since it begins behind them. -/
theorem jump (ha : Ahead part cur jumps h) (hend : cur < part.2) {stop : ℕ} {jumps' : List JumpOff}
    (hjump : shouldJump jumps cur = some (stop, jumps')) : Ahead part stop jumps' h := by
  rcases shouldJump_spec jumps cur with ⟨heq, -⟩ | ⟨j, hj, heq, hle⟩
  · rw [heq] at hjump
    cases hjump
  rw [heq] at hjump
  cases hjump
  obtain ⟨hfrom, hto⟩ := ha.jumps_forward j hj
  have hto := hto (hle.trans_lt hend)
  exact ⟨ha.toForward, hfrom.trans hto, fun o ho => (ha.before_jumps j hj o ho).trans_le hto,
    fun j' hj' => ha.before_jumps j' (List.mem_of_mem_erase hj'),
    fun j' hj' => ha.jumps_forward j' (List.mem_of_mem_erase hj')⟩

/-- Kids stand behind their directory, and end behind their start if that is before the tail. -/
theorem skip (hb : b.Sized) (ha : Ahead part cur jumps h) (hend : cur < part.2) (hstop : part.2 ≤ b.tail)
    (hkids : b.getKidsOffset cur ≠ 0) :
    Ahead part (b.nextName cur) (jumps ++ [⟨b.getKidsOffset cur, b.getTreeEndOffset (b.getKidsOffset cur)⟩]) h := by
  have hcap := hb.capacity_le
  have htail := hb.tail_le
  have hlt := FsBuf.lt_getKidsOffset (FsBuf.add_strlen_le hcap (by omega)) hkids
  have hnext := ha.next (b := b)
  refine ⟨ha.toForward, hnext.le_cur, hnext.before_cur, List.forall_mem_append.mpr ⟨ha.before_jumps,
    List.forall_mem_singleton.mpr fun o ho => (ha.before_cur o ho).trans hlt⟩,
    List.forall_mem_append.mpr ⟨ha.jumps_forward, List.forall_mem_singleton.mpr ⟨ha.le_cur.trans hlt.le, ?_⟩⟩⟩
  exact fun hin => FsBuf.le_getTreeEndOffset hb (hin.le.trans hstop)

/-- A result stands behind those before it and, where no jump is hit, before all jumps. -/
theorem add (ha : Ahead part cur jumps h) (hend : cur < part.2) (hjump : shouldJump jumps cur = none)
    (reqResults : ℕ) : Ahead part (b.nextName cur) jumps (h.add reqResults cur) := by
  have hnext := ha.next (b := b)
  rcases shouldJump_spec jumps cur with ⟨-, hfree⟩ | ⟨j, -, heq, -⟩
  swap
  · rw [heq] at hjump
    cases hjump
  rw [Hits.add]
  by_cases hroom : h.numResults < reqResults
  · simp only [if_pos hroom]
    refine ⟨⟨List.pairwise_append.mpr ⟨ha.sorted, List.pairwise_singleton _ _, fun o ho o' ho' => ?_⟩,
      List.forall_mem_append.mpr ⟨ha.range, List.forall_mem_singleton.mpr ⟨ha.le_cur, hend⟩⟩⟩, hnext.le_cur,
      List.forall_mem_append.mpr ⟨hnext.before_cur, List.forall_mem_singleton.mpr (b.lt_nextName cur)⟩,
      fun j hj => List.forall_mem_append.mpr ⟨ha.before_jumps j hj, List.forall_mem_singleton.mpr (hfree j hj)⟩,
      ha.jumps_forward⟩
    rw [List.mem_singleton.mp ho']
    exact ha.before_cur o ho
  · simp only [if_neg hroom]
    exact ⟨⟨hnext.sorted, hnext.range⟩, hnext.le_cur, hnext.before_cur, hnext.before_jumps, hnext.jumps_forward⟩

end Ahead

/-- An item stands at the place, or the names end before it. -/
def AtItem (items : List Item) (stop off : ℕ) : Prop := stop ≤ off ∨ ∃ x ∈ items, x.off = off

/-- A thread that has started at `start` has come to an item, and its jumps are those of the directories that
it has met. -/
structure OnItems (b : FsBuf) (ruleVal : ℕ) (exRule : List SearchRule) (items : List Item) (start cur : ℕ)
    (jumps : List JumpOff) : Prop where
  le_cur : start ≤ cur
  atItem : AtItem items b.tail cur
  pending : Pending b ruleVal exRule items start cur jumps

theorem OnItems.init {ruleVal : ℕ} {exRule : List SearchRule} {items : List Item} {start : ℕ}
    (h : AtItem items b.tail start) : OnItems b ruleVal exRule items start start [] :=
  ⟨le_rfl, h, .init _ _⟩

/-- A turn at an item leads forward to an item. -/
theorem OnItems.turn {items : List Item} {first start cur next ruleVal : ℕ} {exRule : List SearchRule}
    {jumps jumps' : List JumpOff} (h : Searchable b items first b.tail) (hlt : cur < b.tail)
    (hon : OnItems b ruleVal exRule items start cur jumps)
    (hturn : RuleTurn b ruleVal exRule cur jumps next jumps') :
    cur < next ∧ OnItems b ruleVal exRule items start next jumps' := by
  obtain ⟨hfrom, hat, hp⟩ := hon
  suffices hstep : cur < next ∧ AtItem items b.tail next ∧ Pending b ruleVal exRule items start next jumps' from
    ⟨hstep.1, by omega, hstep.2.1, hstep.2.2⟩
  obtain ⟨x, hx, rfl⟩ := hat.resolve_left (by omega)
  obtain ⟨hnext, hto, hgap⟩ := h.chain.next hx
  have hto : AtItem items b.tail (b.nextName x.off) := hto.imp_left fun heq => heq.ge
  have hstr := h.chain.strAt hx
  have hfree : shouldJump jumps x.off = none → ∀ j ∈ jumps, j.start ≠ x.off := fun hnone j hj heq => by
    rcases shouldJump_spec jumps x.off with ⟨-, hall⟩ | ⟨i, -, hsome, -⟩
    · have := hall j hj
      omega
    · rw [hsome] at hnone
      cases hnone
  cases hturn with
  | parent hname =>
    have hfree : ∀ j ∈ jumps, j.start ≠ x.off := fun j hj heq => by
      obtain ⟨y, hy, -, -, -, hjy, -⟩ := (hp.mem_iff j).mp hj
      obtain ⟨z, hz, hzoff, hzname, -⟩ := h.exists_start hy hjy
      rw [← h.chain.strAt hz, hzoff, heq] at hzname
      exact hzname hname
    have hpending := hp.next h hx rfl hnext hfrom hgap hfree
    rw [if_neg fun hskip => hskip.1 (hstr ▸ hname)] at hpending
    exact ⟨hnext, hto, hpending⟩
  | @jump stop jumps' hname hjump =>
    rcases shouldJump_spec jumps x.off with ⟨heq, -⟩ | ⟨j, hj, heq, hle⟩
    · rw [heq] at hjump
      cases hjump
    · rw [heq] at hjump
      cases hjump
      obtain ⟨y, hy, -, -, -, hjy, hge⟩ := (hp.mem_iff j).mp hj
      have hrange := h.range y hy j hjy
      exact ⟨by omega, ((h.bounded y hy j hjy).2).imp_left fun heq => heq.ge, hp.jump h hj (by omega)⟩
  | skip hname hjump hskip =>
    have hpending := hp.next h hx rfl hnext hfrom hgap (hfree hjump)
    rw [if_pos ⟨hstr ▸ hname, hskip⟩] at hpending
    exact ⟨hnext, hto, hpending⟩
  | compare hname hjump hskip =>
    have hpending := hp.next h hx rfl hnext hfrom hgap (hfree hjump)
    rw [if_neg fun hs => by
      have := hs.2
      rw [hskip] at this
      cases this] at hpending
    exact ⟨hnext, hto, hpending⟩

/-- On a well-formed image a worker whose slice starts at an entry reports entries. -/
theorem Represents.rulesearchThread_found {root : Bytes} {t : Tree} (h : Represents b root t)
    {comparator : Bytes → Bool} {rules : List SearchRule} {reqResults : ℕ} {part : ℕ × ℕ} {maxCount : ℤ}
    (hstart : Boundary b t part.1) (hstop : part.2 ≤ b.tail) {hits : Hits}
    (hhits : b.rulesearchThread comparator rules reqResults part.1 part.2 maxCount = some hits) :
    ∀ o ∈ hits.results, MatchAt b t comparator o := by
  intro o ho
  have hitem : AtItem (treeItems b.firstNameOff [] t) b.tail part.1 := hstart.imp_left fun heq => heq.ge
  obtain ⟨hlt, ⟨jumps, hon⟩, hname, hmatch⟩ := FsBuf.rulesearchThread_found (OnItems.init hitem)
    (fun _ _ _ _ hlt hon hto => (OnItems.turn h.searchable (hlt.trans_le hstop) hon hto).2) hhits o ho
  obtain ⟨x, hx, rfl⟩ := hon.atItem.resolve_left (by omega)
  rw [h.searchable.chain.strAt hx] at hname hmatch
  exact (h.matchAt_iff _ _).mpr ⟨x, hx, rfl, decide_eq_true ⟨hname, hmatch⟩⟩

/-- Every match is that of a worker in its slice. -/
theorem exists_of_mem_found {R : ℕ × ℕ → Hits → Prop} {parts : List (ℕ × ℕ)} {hits : List Hits}
    (h : List.Forall₂ R parts hits) {o : ℕ} (ho : o ∈ found hits) :
    ∃ part ∈ parts, ∃ hit, R part hit ∧ o ∈ hit.results := by
  induction h with
  | nil => cases ho
  | @cons part hit _ _ hthread _ ih =>
    rcases List.mem_append.mp ho with ho | ho
    · exact ⟨part, List.mem_cons_self, hit, hthread, ho⟩
    · obtain ⟨part, hpart, hrest⟩ := ih ho
      exact ⟨part, List.mem_cons_of_mem _ hpart, hrest⟩

/-! ## The loop that puts the results together -/

/-- Where the limit is reached: the slices before, the one that reaches it, and the slices behind. -/
structure Reaches (b : FsBuf) (size total : ℕ) (parts : List (ℕ × ℕ)) (hits : List Hits)
    (pre : List Hits) (h : Hits) (post : List Hits) : Prop where
  split : hits = pre ++ h :: post
  worker : ∃ parts₁ part parts₂, parts = parts₁ ++ part :: parts₂ ∧ Searched b size part h ∧
    List.Forall₂ (Searched b size) parts₁ pre ∧ List.Forall₂ (Searched b size) parts₂ post
  before : total + (found pre).length < size
  reached : size ≤ total + (found pre).length + h.results.length
  exactFill_iff : ExactFill size total hits ↔
    total + (found pre).length + h.results.length = size ∧ 0 < total + (found pre).length

/-- Where the next search starts when the slice of `h` reaches the limit with `total` results before. -/
def nextStart (size total : ℕ) (h : Hits) : ℕ :=
  if total + h.results.length = size then h.startPos else (h.results[size - total]?).getD 0

/-- The end of the range that `parallelsearch_files` searches. -/
def FsBuf.minOff (b : FsBuf) (endOff : ℕ) : ℕ := if b.tail > endOff then endOff else b.tail

/-- What the workers of `parallelsearch_files` leave, in the order of their slices. -/
def FsBuf.workerHits (b : FsBuf) (m : Matcher) (poolThreads startOff endOff count : ℕ)
    (rules : List SearchRule) (query : Bytes) : Option (List Hits) :=
  (b.slices poolThreads startOff (b.minOff endOff) count).1.mapM fun part =>
    if rules = [] then
      some (b.searchThread (m.comparator rules query) count part.1 part.2
        (atoi (getRuleValue rules ruleSearchMaxCount)))
    else
      b.rulesearchThread (m.comparator rules query) rules count part.1 part.2
        (atoi (getRuleValue rules ruleSearchMaxCount))

theorem FsBuf.parallelsearchFiles_eq (b : FsBuf) (m : Matcher) (poolThreads startOff endOff count : ℕ)
    (rules : List SearchRule) (query : Bytes) :
    b.parallelsearchFiles m poolThreads startOff endOff count rules query =
      (b.workerHits m poolThreads startOff endOff count rules query).map fun hits =>
        let merged := mergeHits count (atoi (getRuleValue rules ruleSearchMaxCount)) hits 0 (b.minOff endOff) []
        ⟨if (b.slices poolThreads startOff (b.minOff endOff) count).2 then startOff else merged.2.1,
          merged.1, merged.2.2⟩ :=
  rfl

/-- The name of the file number `j` in a row of thirteen; the first and the last start with a `Z`. -/
def rowName (j : ℕ) : Bytes :=
  (if j = 0 ∨ j = 12 then 90 else 97) :: (List.replicate 248 97 ++ [UInt8.ofNat (65 + j)])

def rowTree : Tree := (List.range 13).foldr (fun j r => .leaf (rowName j) r) .nil

/-- The bytes of the image of the row. -/
def rowMem : Mem where
  get i :=
    if i < 10 then (if i = 8 then slash else 0)
    else if i < 10 + 13 * 252 then
      if (i - 10) % 252 = 0 then (if (i - 10) / 252 = 0 ∨ (i - 10) / 252 = 12 then 90 else 97)
      else if (i - 10) % 252 < 249 then 97
      else if (i - 10) % 252 = 249 then UInt8.ofNat (65 + (i - 10) / 252) else 0
    else if i = 10 + 13 * 252 + 1 then 1 else 0

def rowBuf : FsBuf := ⟨rowMem, 4096, 3291, 10⟩

theorem represents_rowBuf : Represents rowBuf [slash] rowTree where
  root_ok := ⟨rfl, rfl, by decide⟩
  root_at := ⟨rfl, rfl, trivial⟩
  first_eq := rfl
  tail_eq := by decide +kernel
  sized := ⟨by decide, by decide⟩
  image := ⟨fun _ => ⟨by decide +kernel, by unfold UpAt; decide +kernel⟩, trivial⟩
  valid := by decide +kernel

/-- The rule "two results". -/
def rowRules : List SearchRule := [⟨ruleSearchMaxCount, [50]⟩]

end DeepinAnything
