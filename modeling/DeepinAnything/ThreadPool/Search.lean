import DeepinAnything.ThreadPool.Progress
import DeepinAnything.FsBuf.Slices

/-!
# Searching with the thread pool

`parallelsearch_files` gives the slices of a search to the threads of the pool, one each, and waits for every thread.
Any number of searches one after another keeps to the rules of the pool, so that each comes to an end and finds in its
contexts what the threads find when each slice is gone through on its own.
-/

namespace DeepinAnything

namespace ThreadPool

variable {γ : Type*} {n : ℕ}

/-- `fsearch_thread_pool_get_threads`: each thread has been put in front of those before it. -/
def threads (n : ℕ) : List (Fin n) := (List.finRange n).reverse

theorem mem_threads (i : Fin n) : i ∈ threads n := by simp [threads]

theorem nodup_threads (n : ℕ) : (threads n).Nodup := List.nodup_reverse.2 (List.nodup_finRange n)

theorem length_threads (n : ℕ) : (threads n).length = n := by simp [threads]

/-- `fsearch_thread_pool_init` -/
def poolInit (n : ℕ) (γ : Type*) : List (Op n γ) := (List.finRange n).map .new

/-- `fsearch_thread_pool_free` -/
def poolFree (n : ℕ) (γ : Type*) : List (Op n γ) := (threads n).map .free

/-- What a search asks of the pool: a task for a thread each, and a wait for every thread. -/
def searchCalls (n : ℕ) (tasks : List (Task γ)) : List (Op n γ) :=
  (threads n).zipWith .push tasks ++ (threads n).map .wait

namespace Op

/-- One call for each of some threads. -/
theorem phases_map (P : Phase → Prop) {f : Fin n → Op n γ} {q : Phase}
    (hf : ∀ ph i, P (ph i) → (f i).after ph = some (Function.update ph i q)) (ph : Fin n → Phase) {l : List (Fin n)}
    (hl : l.Nodup) (h : ∀ i ∈ l, P (ph i)) : phases ph (l.map f) = some fun i => if i ∈ l then q else ph i := by
  induction l generalizing ph with
  | nil => simp [phases]
  | cons i l ih =>
    rw [List.nodup_cons] at hl
    have hl' : ∀ j ∈ l, j ≠ i := fun j hj hji => hl.1 (hji ▸ hj)
    rw [List.map_cons, phases, hf ph i (h i List.mem_cons_self), Option.bind_some, ih _ hl.2]
    · congr 1
      funext j
      by_cases hj : j = i
      · subst hj
        simp
      · simp [hj]
    · intro j hj
      rw [Function.update_of_ne (hl' j hj)]
      exact h j (List.mem_cons_of_mem _ hj)

theorem phases_poolInit : phases (fun _ => .absent) (poolInit n γ) = some fun _ => .free := by
  have hnew : ∀ (ph : Fin n → Phase) i, ph i = .absent → Op.after ph (.new i : Op n γ) =
      some (Function.update ph i .free) := fun ph i h => if_pos h
  simpa [poolInit] using phases_map (· = .absent) hnew (fun _ => .absent) (List.nodup_finRange n) fun _ _ => rfl

theorem phases_wait {ph : Fin n → Phase} (h : ∀ i, (ph i).Present) :
    phases ph ((threads n).map (.wait : Fin n → Op n γ)) = some fun _ => .free := by
  have hwait : ∀ (ph : Fin n → Phase) i, (ph i).Present → Op.after ph (.wait i : Op n γ) =
      some (Function.update ph i .free) := fun ph i h => if_pos h
  simpa [mem_threads] using phases_map Phase.Present hwait ph (nodup_threads n) fun i _ => h i

theorem phases_poolFree : phases (fun _ => .free) (poolFree n γ) = some fun _ => .gone := by
  have hfree : ∀ (ph : Fin n → Phase) i, (ph i).Present → Op.after ph (.free i : Op n γ) =
      some (Function.update ph i .gone) := fun ph i h => if_pos h
  simpa [poolFree, mem_threads] using
    phases_map Phase.Present hfree (fun _ => .free) (nodup_threads n) fun i _ => by simp [Phase.Present]

/-- Tasks for a thread each. -/
theorem phases_push (ph : Fin n → Phase) {l : List (Fin n)} {tasks : List (Task γ)} (hl : l.Nodup)
    (hdata : (tasks.map Task.data).Nodup) (hpresent : ∀ i, (ph i).Present) (hfree : ∀ i ∈ l, ph i = .free)
    (hapart : ∀ task ∈ tasks, ∀ i, ph i ≠ .given task.data) :
    ∃ ph', phases ph (l.zipWith .push tasks) = some ph' ∧ ∀ i, (ph' i).Present := by
  induction l generalizing ph tasks with
  | nil => exact ⟨ph, rfl, hpresent⟩
  | cons i l ih =>
    cases tasks with
    | nil => exact ⟨ph, rfl, hpresent⟩
    | cons task tasks =>
      rw [List.nodup_cons] at hl
      rw [List.map_cons, List.nodup_cons] at hdata
      have hpush : (Op.push i task).after ph = some (Function.update ph i (.given task.data)) :=
        if_pos ⟨hfree i List.mem_cons_self, hapart task List.mem_cons_self⟩
      rw [List.zipWith_cons_cons, phases, hpush, Option.bind_some]
      refine ih _ hl.2 hdata.2 (fun j => ?_) (fun j hj => ?_) (fun task' htask' j => ?_)
      · by_cases hj : j = i
        · subst hj
          simp [Phase.Present]
        · rw [Function.update_of_ne hj]
          exact hpresent j
      · have hji : j ≠ i := fun hji => hl.1 (hji ▸ hj)
        rw [Function.update_of_ne hji]
        exact hfree j (List.mem_cons_of_mem _ hj)
      · by_cases hj : j = i
        · subst hj
          rw [Function.update_self]
          intro heq
          injection heq with heq
          exact hdata.1 (heq ▸ List.mem_map_of_mem htask')
        · rw [Function.update_of_ne hj]
          exact hapart task' (List.mem_cons_of_mem _ htask') j

/-- A search leaves the threads with nothing to do. -/
theorem phases_searchCalls {tasks : List (Task γ)} (hdata : (tasks.map Task.data).Nodup) :
    phases (fun _ => .free) (searchCalls n tasks) = some fun _ => .free := by
  obtain ⟨ph, hpush, hpresent⟩ := phases_push (fun _ => .free) (nodup_threads n) hdata
    (by simp [Phase.Present]) (by simp) (by simp)
  rw [searchCalls, phases_append, hpush, Option.bind_some, phases_wait hpresent]

theorem phases_searches {searches : List (List (Task γ))}
    (hdata : ∀ tasks ∈ searches, (tasks.map Task.data).Nodup) :
    phases (fun _ => .absent) (poolInit n γ ++ searches.flatMap (searchCalls n)) = some fun _ => .free := by
  rw [phases_append, phases_poolInit, Option.bind_some]
  induction searches with
  | nil => rfl
  | cons tasks searches ih =>
    rw [List.flatMap_cons, phases_append, phases_searchCalls (hdata tasks List.mem_cons_self), Option.bind_some]
    exact ih fun tasks' htasks' => hdata tasks' (List.mem_cons_of_mem _ htasks')

/-- A pool that is made, used for any number of searches and freed. -/
theorem fits_searches {searches : List (List (Task γ))} (hdata : ∀ tasks ∈ searches, (tasks.map Task.data).Nodup) :
    Fits (poolInit n γ ++ searches.flatMap (searchCalls n) ++ poolFree n γ) := by
  rw [Fits, phases_append, phases_searches hdata, Option.bind_some, phases_poolFree]
  rfl

/-! ## What a search leaves -/

theorem foldl_map_of_no_task {f : Fin n → Op n γ} (hf : ∀ i j, (f i).taskFor j = none) (mem : ℕ → γ)
    (l : List (Fin n)) :
    (l.map f).foldl Op.run mem = mem := by
  induction l with
  | nil => rfl
  | cons i l ih => rw [List.map_cons, List.foldl_cons, run_of_no_task (hf i), ih]

theorem foldl_push (mem : ℕ → γ) {l : List (Fin n)} {tasks : List (Task γ)} (hlen : tasks.length ≤ l.length) :
    (l.zipWith .push tasks : List (Op n γ)).foldl Op.run mem = tasks.foldl Task.run mem := by
  induction l generalizing mem tasks with
  | nil =>
    rw [List.length_nil, Nat.le_zero, List.length_eq_zero_iff] at hlen
    subst hlen
    rfl
  | cons i l ih =>
    cases tasks with
    | nil => rfl
    | cons task tasks => exact ih (task.run mem) (Nat.le_of_succ_le_succ hlen)

theorem foldl_searchCalls (mem : ℕ → γ) {tasks : List (Task γ)} (hlen : tasks.length ≤ n) :
    (searchCalls n tasks).foldl Op.run mem = tasks.foldl Task.run mem := by
  rw [searchCalls, List.foldl_append, foldl_push mem (by rwa [length_threads]), foldl_map_of_no_task fun _ _ => rfl]

end Op

theorem foldl_run_of_not_mem (mem : ℕ → γ) {tasks : List (Task γ)} {d : ℕ} (hd : d ∉ tasks.map Task.data) :
    tasks.foldl Task.run mem d = mem d := by
  induction tasks generalizing mem with
  | nil => rfl
  | cons task tasks ih =>
    rw [List.map_cons, List.mem_cons, not_or] at hd
    rw [List.foldl_cons, ih _ hd.2, Task.run, Function.update_of_ne hd.1]

/-- Tasks that each work on their own. -/
theorem foldl_run_data (mem : ℕ → γ) {tasks : List (Task γ)} (hdata : (tasks.map Task.data).Nodup) {task : Task γ}
    (htask : task ∈ tasks) : tasks.foldl Task.run mem task.data = task.func (mem task.data) := by
  induction tasks generalizing mem with
  | nil => cases htask
  | cons first tasks ih =>
    rw [List.map_cons, List.nodup_cons] at hdata
    rw [List.foldl_cons]
    rcases List.mem_cons.1 htask with rfl | htask
    · rw [foldl_run_of_not_mem _ hdata.1, Task.run, Function.update_self]
    · have hne : task.data ≠ first.data := fun heq => hdata.1 (heq ▸ List.mem_map_of_mem htask)
      rw [ih _ hdata.2 htask, Task.run, Function.update_of_ne hne]

namespace Pool

/-- When the client has waited for a search, each of its tasks has been run, and on what was there before the search. -/
theorem Reachable.searched {mem₀ : ℕ → γ} {before after : List (Op n γ)} {tasks : List (Task γ)} {s : Pool n γ}
    (hbefore : Op.phases (fun _ => .absent) before = some fun _ => .free) (hdata : (tasks.map Task.data).Nodup)
    (hlen : tasks.length ≤ n) (hfits : Op.Fits (before ++ searchCalls n tasks ++ after))
    (hs : Reachable mem₀ (before ++ searchCalls n tasks ++ after) s) (htodo : s.todo = after) {task : Task γ}
    (htask : task ∈ tasks) : s.mem task.data = task.func (before.foldl Op.run mem₀ task.data) := by
  obtain ⟨done, ph, hprog, hinv⟩ := hs.inv hfits
  rw [htodo] at hprog
  obtain rfl := List.append_cancel_right hprog
  have hph : ph = fun _ => .free := by
    have hphases := hinv.phases
    rw [Op.phases_append, hbefore, Option.bind_some, Op.phases_searchCalls hdata] at hphases
    exact (Option.some.inj hphases).symm
  have hsettled := hinv.settled task.data fun i task' hi => by
    have hgiven := hinv.pending_given hi
    simp [hph] at hgiven
  rw [← hsettled, List.foldl_append, Op.foldl_searchCalls _ hlen, foldl_run_data _ hdata htask]

end Pool

end ThreadPool

/-! ## Searching a buffer -/

open ByteMem ThreadPool

/-- What a thread reads and writes of a `search_thread_context_t`: its slice, and what it has found there. -/
structure SearchContext where
  part : ℕ × ℕ
  hits : Hits
deriving DecidableEq, Repr

/-- `search_thread_context_new` -/
def SearchContext.new (part : ℕ × ℕ) : SearchContext := ⟨part, ⟨0, [], part.1⟩⟩

namespace FsBuf

variable (b : FsBuf) (m : Matcher) (poolThreads startOff endOff count : ℕ) (rules : List SearchRule) (query : Bytes)

/-- `search_thread`, or `rulesearch_thread` where it ends. -/
def searchFunc (ctx : SearchContext) : SearchContext :=
  let comparator := m.comparator rules query
  let maxCount := atoi (getRuleValue rules ruleSearchMaxCount)
  if rules = [] then { ctx with hits := b.searchThread comparator count ctx.part.1 ctx.part.2 maxCount }
  else
    match b.rulesearchThread comparator rules count ctx.part.1 ctx.part.2 maxCount with
    | some hits => { ctx with hits := hits }
    | none => ctx

/-- The slices of a search. -/
def searchParts : List (ℕ × ℕ) := (b.slices poolThreads startOff (b.minOff endOff) count).1

/-- The tasks of a search, whose contexts are at the addresses `data`. -/
def searchTasks (data : List ℕ) : List (ThreadPool.Task SearchContext) :=
  data.map fun d => ⟨b.searchFunc m count rules query, d⟩

/-- The end of `parallelsearch_files`, with what the contexts hold. -/
def searchReply (contexts : List SearchContext) : SearchReply :=
  let (total, minOff, results) :=
    mergeHits count (atoi (getRuleValue rules ruleSearchMaxCount)) (contexts.map (·.hits)) 0 (b.minOff endOff) []
  ⟨if (b.slices poolThreads startOff (b.minOff endOff) count).2 then startOff else minOff, total, results⟩

variable {b m poolThreads startOff endOff count rules query}

theorem length_slicesLoop_le (b : FsBuf) (numItemsPerThread minOff left startPos endPos : ℕ) :
    (b.slicesLoop numItemsPerThread minOff left startPos endPos).1.length ≤ left := by
  induction left generalizing startPos endPos with
  | zero => simp [slicesLoop]
  | succ left ih =>
    unfold slicesLoop
    simp only
    generalize (if left = 0 then minOff else endPos) = stop
    generalize (if _ > minOff then minOff else _) = nextEnd
    split
    · simp
    · split
      · simp
      · simpa using ih _ _

/-- A search has no more slices than the pool has threads. -/
theorem length_searchParts_le (b : FsBuf) (startOff endOff count : ℕ) (hpool : 0 < poolThreads) :
    (b.searchParts poolThreads startOff endOff count).length ≤ poolThreads := by
  refine (length_slicesLoop_le _ _ _ _ _ _).trans ?_
  split <;> omega

/-- What a thread that ends leaves in its context. -/
theorem hits_searchFunc {part : ℕ × ℕ} {hits : Hits}
    (h : (if rules = [] then
        some (b.searchThread (m.comparator rules query) count part.1 part.2
          (atoi (getRuleValue rules ruleSearchMaxCount)))
      else
        b.rulesearchThread (m.comparator rules query) rules count part.1 part.2
          (atoi (getRuleValue rules ruleSearchMaxCount))) = some hits) :
    (b.searchFunc m count rules query (.new part)).hits = hits := by
  unfold searchFunc
  split at h
  · next hrules =>
    simp only [hrules, if_true] at h ⊢
    exact Option.some.inj h
  · next hrules =>
    simp only [hrules, if_false]
    rw [show b.rulesearchThread (m.comparator rules query) rules count (SearchContext.new part).part.1
      (SearchContext.new part).part.2 (atoi (getRuleValue rules ruleSearchMaxCount)) = some hits from h]

theorem map_eq_of_mapM {α β : Type*} {f : α → Option β} {g : α → β} (hfg : ∀ x y, f x = some y → g x = y) {l : List α}
    {l' : List β} (h : l.mapM f = some l') : l.map g = l' := by
  induction l generalizing l' with
  | nil => simpa using h
  | cons x l ih =>
    rw [List.mapM_cons] at h
    obtain ⟨y, hy, h⟩ := Option.bind_eq_some_iff.1 h
    obtain ⟨ys, hys, h⟩ := Option.bind_eq_some_iff.1 h
    rw [List.map_cons, hfg x y hy, ih hys]
    exact Option.some.inj h

/-- **The threads find what a search finds**: when the client of a pool has waited for a search, whatever order the
threads have gone in, the contexts give the reply of the search that goes through one slice after another. -/
theorem parallelsearchFiles_pool {n : ℕ} (hn : 0 < n) {reply : SearchReply}
    (hreply : b.parallelsearchFiles m n startOff endOff count rules query = some reply) {data : List ℕ}
    (hdata : data.Nodup) {mem₀ : ℕ → SearchContext} {before after : List (Op n SearchContext)}
    {s : Pool n SearchContext} (hbefore : Op.phases (fun _ => .absent) before = some fun _ => .free)
    (hmade : data.map (before.foldl Op.run mem₀) = (b.searchParts n startOff endOff count).map .new)
    (hfits : Op.Fits (before ++ searchCalls n (b.searchTasks m count rules query data) ++ after))
    (hs : Pool.Reachable mem₀ (before ++ searchCalls n (b.searchTasks m count rules query data) ++ after) s)
    (htodo : s.todo = after) :
    b.searchReply n startOff endOff count rules (data.map s.mem) = reply := by
  have hlen : (b.searchTasks m count rules query data).length ≤ n := by
    have hparts := length_searchParts_le b startOff endOff count hn
    have hsame := congrArg List.length hmade
    rw [List.length_map, List.length_map] at hsame
    rw [searchTasks, List.length_map]
    omega
  have hnodup : ((b.searchTasks m count rules query data).map ThreadPool.Task.data).Nodup := by
    simpa [searchTasks, Function.comp_def] using hdata
  have hmem : data.map s.mem =
      ((b.searchParts n startOff endOff count).map .new).map (b.searchFunc m count rules query) := by
    rw [← hmade, List.map_map]
    refine List.map_congr_left fun d hd => ?_
    have htask : ⟨b.searchFunc m count rules query, d⟩ ∈ b.searchTasks m count rules query data :=
      List.mem_map_of_mem hd
    exact hs.searched hbefore hnodup hlen hfits htodo htask
  rw [FsBuf.parallelsearchFiles_eq] at hreply
  obtain ⟨hits, hhits, rfl⟩ := Option.map_eq_some_iff.1 hreply
  have hworkers : (data.map s.mem).map (·.hits) = hits := by
    rw [hmem, List.map_map, List.map_map]
    exact map_eq_of_mapM (fun part hits h => hits_searchFunc h) hhits
  rw [searchReply, hworkers]

/-- The contexts of a search of the sample buffer by two threads. -/
def sampleContexts (d : ℕ) : SearchContext := .new ((rowBuf.searchParts 2 10 3291 2).getD d (0, 0))

def sampleSearch : List (Op 2 SearchContext) :=
  poolInit 2 SearchContext ++ searchCalls 2 (rowBuf.searchTasks plainMatcher 2 rowRules [90] [0, 1]) ++ poolFree 2 _

/-- One thread has run its task before the other begins. -/
theorem parallelsearchFiles_pool_sample : ∃ s : Pool 2 SearchContext,
    Pool.Reachable sampleContexts sampleSearch s ∧ s.todo = poolFree 2 _ ∧
      rowBuf.searchReply 2 10 3291 2 rowRules ([0, 1].map s.mem) = ⟨2026, 2, [10, 3034]⟩ := by
  let acts : List (Act 2) :=
    [.call, .work 0, .work 0, .call, .call, .work 1, .work 1, .work 1, .call, .call, .call, .work 1, .work 1, .work 1,
      .work 1, .work 1, .work 0, .call, .call, .call, .call, .call, .call, .work 0, .work 0, .work 0, .work 0, .work 0,
      .call, .call]
  have hrun : (Steps.run Pool.step (Pool.initial sampleContexts sampleSearch) acts).map (·.todo.length) = some 2 := by
    decide +kernel
  obtain ⟨s, hs, hlen⟩ := Option.map_eq_some_iff.1 hrun
  have hfits : Op.Fits sampleSearch := by decide +kernel
  have htodo : s.todo = poolFree 2 _ := by
    obtain ⟨done, ph, hprog, -⟩ := Pool.Reachable.inv ⟨acts, hs⟩ hfits
    exact (List.append_inj_right' hprog hlen.symm).symm
  refine ⟨s, ⟨acts, hs⟩, htodo, ?_⟩
  have hreply : rowBuf.parallelsearchFiles plainMatcher 2 10 3291 2 rowRules [90] = some ⟨2026, 2, [10, 3034]⟩ := by
    decide +kernel
  exact parallelsearchFiles_pool (by decide) hreply (by decide) Op.phases_poolInit (by decide +kernel) hfits
    ⟨acts, hs⟩ htodo

end FsBuf

end DeepinAnything
