import DeepinAnything.ThreadPool.Basic

/-!
# What the steps of the thread pool keep

A program keeps to the rules if it creates a thread before it gives it anything, gives it one task at a time, waits
before it gives it the next, and no two tasks that are out work on the same data. Then every interleaving of such a
program does what its tasks do one after another.
-/

namespace DeepinAnything.ThreadPool

variable {γ : Type*} {n : ℕ}

/-! ## Programs that keep to the rules -/

/-- How far the client is with a thread: it has not been created, has nothing to do, has been given a task that works
on an address, or has been freed. -/
inductive Phase where
  | absent
  | free
  | given (data : ℕ)
  | gone
deriving DecidableEq, Repr

/-- The thread is there. -/
def Phase.Present (p : Phase) : Prop := p ≠ .absent ∧ p ≠ .gone

instance (p : Phase) : Decidable p.Present := inferInstanceAs (Decidable (_ ∧ _))

namespace Op

/-- The phases after a call, if it keeps to the rules. -/
def after (ph : Fin n → Phase) : Op n γ → Option (Fin n → Phase)
  | .new i => if ph i = .absent then some (Function.update ph i .free) else none
  | .push i task =>
    if ph i = .free ∧ ∀ j, ph j ≠ .given task.data then some (Function.update ph i (.given task.data)) else none
  | .wait i => if (ph i).Present then some (Function.update ph i .free) else none
  | .free i => if (ph i).Present then some (Function.update ph i .gone) else none

/-- The phases after a program, if it keeps to the rules. -/
def phases : (Fin n → Phase) → List (Op n γ) → Option (Fin n → Phase)
  | ph, [] => some ph
  | ph, op :: ops => (op.after ph).bind (phases · ops)

theorem phases_append (ph : Fin n → Phase) (ops ops' : List (Op n γ)) :
    phases ph (ops ++ ops') = (phases ph ops).bind (phases · ops') := by
  induction ops generalizing ph with
  | nil => rfl
  | cons op ops ih =>
    simp only [List.cons_append, phases, Option.bind_assoc]
    congr 1
    funext ph'
    exact ih ph'

/-- No two threads have tasks that work on the same address. -/
def Apart (ph : Fin n → Phase) : Prop := ∀ i j d, ph i = .given d → ph j = .given d → i = j

theorem after_apart {ph ph' : Fin n → Phase} {op : Op n γ} (h : op.after ph = some ph') (hph : Apart ph) :
    Apart ph' := by
  intro i j d hi hj
  cases op <;> simp only [after, Option.ite_none_right_eq_some, Option.some.injEq] at h <;>
    obtain ⟨hop, rfl⟩ := h <;> grind -linarith [Function.update_apply, Apart]

theorem phases_apart {ph ph' : Fin n → Phase} {ops : List (Op n γ)} (h : phases ph ops = some ph') (hph : Apart ph) :
    Apart ph' := by
  induction ops generalizing ph with
  | nil => exact Option.some.inj h ▸ hph
  | cons op ops ih =>
    obtain ⟨ph₁, hop, hops⟩ := Option.bind_eq_some_iff.1 h
    exact ih hops (after_apart hop hph)

/-- The program keeps to the rules from the start. -/
def Fits (prog : List (Op n γ)) : Prop := (phases (fun _ => .absent) prog).isSome

instance (prog : List (Op n γ)) : Decidable (Fits prog) := inferInstanceAs (Decidable (_ = true))

/-- The next call of a program that keeps to the rules. -/
theorem after_of_fits {done ops : List (Op n γ)} {op : Op n γ} {ph : Fin n → Phase} (h : Fits (done ++ op :: ops))
    (hdone : phases (fun _ => .absent) done = some ph) : ∃ ph', op.after ph = some ph' := by
  unfold Fits at h
  rw [phases_append, hdone, Option.bind_some, phases, Option.isSome_bind] at h
  exact Option.isSome_iff_exists.1 (Option.isSome_of_any h)

/-- The call, if its task were run at once. -/
def run (mem : ℕ → γ) : Op n γ → ℕ → γ
  | .push _ task => task.run mem
  | .new _ | .wait _ | .free _ => mem

/-- The task a call gives to a thread. -/
def taskFor (i : Fin n) : Op n γ → Option (Task γ)
  | .push j task => if j = i then some task else none
  | .new _ | .wait _ | .free _ => none

theorem run_of_no_task {op : Op n γ} (h : ∀ i, op.taskFor i = none) (mem : ℕ → γ) : op.run mem = mem := by
  cases op with
  | push i task => simpa [taskFor] using h i
  | _ => rfl

/-- The tasks a program gives to a thread. -/
def tasksFor (i : Fin n) (ops : List (Op n γ)) : List (Task γ) := ops.filterMap (taskFor i)

end Op

/-! ## One thread and the client -/

/-- What a signal of `finished_cond` does to a client that may be asleep on it. -/
def ClientPc.signalled : ClientPc → ClientPc
  | .asleep => .woken
  | k => k

namespace Context

/-- The task of the thread that it has not run. -/
def pending (c : Context γ) : Option (Task γ) := if c.pc = .ran then none else c.task

/-- What holds of a thread in phase `p` while the client is at `k` in a call for it. -/
structure Good (p : Phase) (k : ClientPc) (c : Context γ) : Prop where
  worker_holds : c.mutex = some .worker ↔ c.pc = .check ∨ c.pc = .ready ∨ c.pc = .testing ∨ c.pc = .ran
  client_holds : c.mutex = some .client ↔ k = .locked
  awake : c.task ≠ none → c.pc = .woken ∨ c.pc = .testing ∨ c.pc = .ran
  busy : c.status = .busy ↔ c.task ≠ none ∨ c.pc = .testing
  ran : c.pc = .ran → c.task ≠ none
  fresh : p = .absent → k ≠ .polling → c = .fresh
  polling : k = .polling → p = .absent ∧ c.pc ≠ .absent
  readied : c.pc = .ready ∨ c.pc = .asleep → c.threadWaited = true
  waited : c.threadWaited = true → c.pc ≠ .absent ∧ c.pc ≠ .start
  started : p ≠ .absent → c.threadWaited = true
  ending : c.terminate = true → (p = .gone ∨ k = .joining) ∧ c.pc ≠ .absent ∧ c.pc ≠ .asleep ∧ c.pc ≠ .ready
  joining : k = .joining → c.terminate = true
  ended : c.pc = .ended → c.terminate = true
  given : ∀ task, c.task = some task → p = .given task.data
  gone : p = .gone → c.pc = .ended
  sleeps : k = .asleep → c.task ≠ none

variable {p : Phase} {k : ClientPc} {c c' : Context γ}

/-- What a step of the thread can do. -/
inductive Works (c : Context γ) : Context γ → Prop
  | start (hpc : c.pc = .start) (hfree : c.mutex = none) : Works c { c with pc := .check, mutex := some .worker }
  | terminate (hpc : c.pc = .check) (hend : c.terminate = true) : Works c { c with pc := .ended, mutex := none }
  | wait (hpc : c.pc = .check) (hend : c.terminate = false) : Works c { c with pc := .ready, threadWaited := true }
  | sleep (hpc : c.pc = .ready) : Works c { c with pc := .asleep, mutex := none }
  | wake (hpc : c.pc = .woken) (hfree : c.mutex = none) :
      Works c { c with pc := .testing, mutex := some .worker, status := .busy }
  | nothing (hpc : c.pc = .testing) (htask : c.task = none) : Works c { c with pc := .check, status := .idle }
  | task (hpc : c.pc = .testing) (htask : c.task ≠ none) : Works c { c with pc := .ran }
  | finish (hpc : c.pc = .ran) : Works c { c with pc := .check, task := none, status := .idle }

theorem works_of_work (hw : c.work = some c') : c.Works c' := by
  unfold Context.work at hw
  cases hpc : c.pc <;> simp only [hpc] at hw
  case absent => cases hw
  case asleep => cases hw
  case ended => cases hw
  case start =>
    split at hw <;> cases hw
    exact .start hpc ‹_›
  case check =>
    split at hw <;> cases hw
    · exact .terminate hpc ‹_›
    · exact .wait hpc (by simp_all)
  case ready =>
    cases hw
    exact .sleep hpc
  case woken =>
    split at hw <;> cases hw
    exact .wake hpc ‹_›
  case testing =>
    split at hw <;> cases hw
    · exact .task hpc (by simp_all)
    · exact .nothing hpc ‹_›
  case ran =>
    cases hw
    exact .finish hpc

/-- The thread takes the mutex and looks at `terminate`. -/
theorem Good.start (h : Good p k c) (hpc : c.pc = .start) (hfree : c.mutex = none) :
    Good p k { c with pc := .check, mutex := some .worker } := by
  obtain ⟨h1, h2, h3, h4, h5, h6, h7, h8, h9, h10, h11, h12, h13, h14, h15, h16⟩ := h
  constructor <;> grind -linarith only [Context.fresh]

/-- The thread ends. -/
theorem Good.end_thread (h : Good p k c) (hpc : c.pc = .check) (hend : c.terminate = true) :
    Good p k { c with pc := .ended, mutex := none } := by
  obtain ⟨h1, h2, h3, h4, h5, h6, h7, h8, h9, h10, h11, h12, h13, h14, h15, h16⟩ := h
  constructor <;> grind -linarith only [Context.fresh]

/-- The thread is about to sleep. -/
theorem Good.ready (h : Good p k c) (hpc : c.pc = .check) (hend : c.terminate = false) :
    Good p k { c with pc := .ready, threadWaited := true } := by
  obtain ⟨h1, h2, h3, h4, h5, h6, h7, h8, h9, h10, h11, h12, h13, h14, h15, h16⟩ := h
  constructor <;> grind -linarith only [Context.fresh]

/-- The thread gives the mutex back and sleeps. -/
theorem Good.sleep_thread (h : Good p k c) (hpc : c.pc = .ready) :
    Good p k { c with pc := .asleep, mutex := none } := by
  obtain ⟨h1, h2, h3, h4, h5, h6, h7, h8, h9, h10, h11, h12, h13, h14, h15, h16⟩ := h
  constructor <;> grind -linarith only [Context.fresh]

/-- The thread has been woken and has the mutex again. -/
theorem Good.wake (h : Good p k c) (hpc : c.pc = .woken) (hfree : c.mutex = none) :
    Good p k { c with pc := .testing, mutex := some .worker, status := .busy } := by
  obtain ⟨h1, h2, h3, h4, h5, h6, h7, h8, h9, h10, h11, h12, h13, h14, h15, h16⟩ := h
  constructor <;> grind -linarith only [Context.fresh]

/-- The thread finds no task. -/
theorem Good.nothing (h : Good p k c) (hpc : c.pc = .testing) (htask : c.task = none) :
    Good p k { c with pc := .check, status := .idle } := by
  obtain ⟨h1, h2, h3, h4, h5, h6, h7, h8, h9, h10, h11, h12, h13, h14, h15, h16⟩ := h
  constructor <;> grind -linarith only [Context.fresh]

/-- The thread comes back from its task. -/
theorem Good.task (h : Good p k c) (hpc : c.pc = .testing) (htask : c.task ≠ none) :
    Good p k { c with pc := .ran } := by
  obtain ⟨h1, h2, h3, h4, h5, h6, h7, h8, h9, h10, h11, h12, h13, h14, h15, h16⟩ := h
  constructor <;> grind -linarith only [Context.fresh]

/-- The thread is done with its task and signals. -/
theorem Good.finish (h : Good p k c) (hpc : c.pc = .ran) :
    Good p k.signalled ({ c with pc := .check, task := none, status := .idle } : Context γ) := by
  obtain ⟨h1, h2, h3, h4, h5, h6, h7, h8, h9, h10, h11, h12, h13, h14, h15, h16⟩ := h
  cases k <;> constructor <;> grind -linarith only [Context.fresh, ClientPc.signalled]

/-- A step of the thread. -/
theorem Good.work (h : Good p k c) (hw : c.Works c') : Good p (if c.pc = .ran then k.signalled else k) c' := by
  cases hw with
  | start hpc hfree => simpa [hpc] using h.start hpc hfree
  | terminate hpc hend => simpa [hpc] using h.end_thread hpc hend
  | wait hpc hend => simpa [hpc] using h.ready hpc hend
  | sleep hpc => simpa [hpc] using h.sleep_thread hpc
  | wake hpc hfree => simpa [hpc] using h.wake hpc hfree
  | nothing hpc htask => simpa [hpc] using h.nothing hpc htask
  | task hpc htask => simpa [hpc] using h.task hpc htask
  | finish hpc => simpa [hpc] using h.finish hpc

/-- The client creates the thread. -/
theorem Good.new (h : Good p .entry c) (hp : p = .absent) :
    Good p .polling { (Context.fresh : Context γ) with pc := .start } := by
  obtain ⟨h1, h2, h3, h4, h5, h6, h7, h8, h9, h10, h11, h12, h13, h14, h15, h16⟩ := h
  constructor <;> grind -linarith only [Context.fresh]

/-- The thread has shown that it has started. -/
theorem Good.created (h : Good p .polling c) (hwaited : c.threadWaited = true) : Good .free .entry c := by
  obtain ⟨h1, h2, h3, h4, h5, h6, h7, h8, h9, h10, h11, h12, h13, h14, h15, h16⟩ := h
  constructor <;> grind -linarith only [Context.fresh]

/-- The client takes the mutex. -/
theorem Good.lock (h : Good p k c) (hp : p.Present) (hk : k = .entry ∨ k = .woken) (hfree : c.mutex = none) :
    Good p .locked { c with mutex := some .client } := by
  obtain ⟨h1, h2, h3, h4, h5, h6, h7, h8, h9, h10, h11, h12, h13, h14, h15, h16⟩ := h
  constructor <;> grind -linarith only [Context.fresh, Phase.Present]

/-- While the client holds the mutex, the thread waits for `start_cond` or has been woken. -/
theorem Good.resting (h : Good p .locked c) (hp : p.Present) : c.pc = .asleep ∨ c.pc = .woken := by
  have hwaited := h.waited (h.started hp.1)
  have hmutex := h.client_holds.2 rfl
  have hworker := h.worker_holds
  have hended : c.pc ≠ .ended := fun hpc =>
    (h.ending (h.ended hpc)).1.elim hp.2 (by simp)
  cases hpc : c.pc <;> simp_all

/-- The client gives the thread a task. -/
theorem Good.push (h : Good .free .locked c) (task : Task γ) :
    Good (.given task.data) .entry
      { ({ c with task := some task, status := .busy } : Context γ).signalStart with mutex := none } := by
  have hpc := h.resting (by decide)
  obtain ⟨h1, h2, h3, h4, h5, h6, h7, h8, h9, h10, h11, h12, h13, h14, h15, h16⟩ := h
  constructor <;> grind -linarith only [Context.fresh, Context.signalStart]

/-- The client goes to sleep on `finished_cond`. -/
theorem Good.sleep (h : Good p .locked c) (hbusy : c.status = .busy) : Good p .asleep { c with mutex := none } := by
  obtain ⟨h1, h2, h3, h4, h5, h6, h7, h8, h9, h10, h11, h12, h13, h14, h15, h16⟩ := h
  constructor <;> grind -linarith only [Context.fresh, Phase.Present]

/-- The client sees that the thread is not busy. -/
theorem Good.finished (h : Good p .locked c) (hp : p.Present) (hbusy : c.status ≠ .busy) :
    Good .free .entry { c with mutex := none } := by
  obtain ⟨h1, h2, h3, h4, h5, h6, h7, h8, h9, h10, h11, h12, h13, h14, h15, h16⟩ := h
  constructor <;> grind -linarith only [Context.fresh, Phase.Present]

/-- The client tells the thread to end. -/
theorem Good.terminate (h : Good p .locked c) (hp : p.Present) :
    Good p .joining { ({ c with terminate := true } : Context γ).signalStart with mutex := none } := by
  obtain ⟨h1, h2, h3, h4, h5, h6, h7, h8, h9, h10, h11, h12, h13, h14, h15, h16⟩ := h
  constructor <;> grind -linarith only [Context.fresh, Context.signalStart, Phase.Present]

/-- The thread has ended. -/
theorem Good.joined (h : Good p .joining c) (hpc : c.pc = .ended) : Good .gone .entry c := by
  obtain ⟨h1, h2, h3, h4, h5, h6, h7, h8, h9, h10, h11, h12, h13, h14, h15, h16⟩ := h
  constructor <;> grind -linarith only [Context.fresh]

/-- The thread wakes without a signal. -/
theorem Good.wakeWorker (h : Good p k c) (hpc : c.pc = .asleep) : Good p k { c with pc := .woken } := by
  obtain ⟨h1, h2, h3, h4, h5, h6, h7, h8, h9, h10, h11, h12, h13, h14, h15, h16⟩ := h
  constructor <;> grind -linarith only [Context.fresh]

/-- The client wakes without a signal. -/
theorem Good.wakeClient (h : Good p .asleep c) : Good p .woken c := by
  obtain ⟨h1, h2, h3, h4, h5, h6, h7, h8, h9, h10, h11, h12, h13, h14, h15, h16⟩ := h
  constructor <;> grind -linarith only [Context.fresh]

/-- A step of the thread at which it does not run its task. -/
theorem Works.pending_eq (hw : c.Works c') (h : c.pc = .testing → c.task = none) : c'.pending = c.pending := by
  cases hw <;> simp_all [pending]

theorem pending_signalStart (c : Context γ) : c.signalStart.pending = c.pending := by
  unfold signalStart pending
  split <;> simp_all

theorem pending_lock (c : Context γ) (mutex : Option Owner) :
    ({ c with mutex := mutex } : Context γ).pending = c.pending :=
  rfl

end Context

/-! ## The pool -/

namespace Pool

open Op

variable {s s' : Pool n γ} {i j : Fin n} {mem₀ : ℕ → γ} {done ops : List (Op n γ)} {ph ph' : Fin n → Phase}
  {op : Op n γ}

variable (s) in
/-- Where the client is in a call for a thread. -/
def stage (i : Fin n) : ClientPc :=
  match s.todo with
  | op :: _ => if op.thread = i then s.pc else .entry
  | [] => .entry

theorem stage_self (h : s.todo = op :: ops) : s.stage op.thread = s.pc := by
  simp [stage, h]

theorem stage_of_ne (h : s.todo = op :: ops) (hne : op.thread ≠ i) : s.stage i = .entry := by
  simp [stage, h, hne]

@[simp] theorem stage_setCtx (s : Pool n γ) (i j : Fin n) (c : Context γ) : (s.setCtx i c).stage j = s.stage j := rfl

theorem stage_entry (h : s.pc = .entry) : s.stage i = .entry := by
  unfold stage
  split
  · split
    · exact h
    · rfl
  · rfl

/-- The places the client can be at in a call. -/
def places : Op n γ → List ClientPc
  | .new _ => [.entry, .polling]
  | .push _ _ => [.entry, .locked]
  | .wait _ => [.entry, .locked, .asleep, .woken]
  | .free _ => [.entry, .locked, .joining]

/-- What holds of the pool when the client has done the calls `done`. -/
structure Inv (mem₀ : ℕ → γ) (done : List (Op n γ)) (ph : Fin n → Phase) (s : Pool n γ) : Prop where
  phases : phases (fun _ => .absent) done = some ph
  good : ∀ i, (s.ctx i).Good (ph i) (s.stage i)
  place : ∀ op ops, s.todo = op :: ops → s.pc ∈ places op
  nothing : s.todo = [] → s.pc = .entry
  ran : ∀ i, tasksFor i done = s.ran i ++ (s.ctx i).pending.toList
  pending : ∀ i task, (s.ctx i).pending = some task → done.foldl Op.run mem₀ task.data = task.func (s.mem task.data)
  settled : ∀ d, (∀ i task, (s.ctx i).pending = some task → task.data ≠ d) → done.foldl Op.run mem₀ d = s.mem d

/-- What a step of a thread does to the pool. -/
theorem workStep_cases (h : s.workStep i = some s') :
    ∃ c, (s.ctx i).Works c ∧
      ((∃ task, (s.ctx i).pc = .testing ∧ (s.ctx i).task = some task ∧
          s' = { s.setCtx i c with
            mem := task.run s.mem, ran := Function.update s.ran i (s.ran i ++ [task]) }) ∨
        ((s.ctx i).pc = .ran ∧ s' = (s.setCtx i c).signalFinished i) ∨
        ((s.ctx i).pc ≠ .ran ∧ ((s.ctx i).pc = .testing → (s.ctx i).task = none) ∧ s' = s.setCtx i c)) := by
  obtain ⟨c, hc, rfl⟩ := Option.map_eq_some_iff.1 h
  refine ⟨c, Context.works_of_work hc, ?_⟩
  cases hpc : (s.ctx i).pc <;> cases htask : (s.ctx i).task <;> simp

/-- The state after a step that moves one thread, or the client in a call for it, on. -/
theorem Inv.thread (h : Inv mem₀ done ph s) {c : Context γ} (hctx : s'.ctx = Function.update s.ctx i c)
    (hmem : s'.mem = s.mem) (hran : s'.ran = s.ran) (hpending : c.pending = (s.ctx i).pending)
    (hgood : c.Good (ph i) (s'.stage i)) (hstage : ∀ j, j ≠ i → s'.stage j = s.stage j)
    (hplace : ∀ op ops, s'.todo = op :: ops → s'.pc ∈ places op) (hnothing : s'.todo = [] → s'.pc = .entry) :
    Inv mem₀ done ph s' := by
  have hsame : ∀ j, (s'.ctx j).pending = (s.ctx j).pending := by
    intro j
    rw [hctx]
    by_cases hj : j = i
    · subst hj
      rw [Function.update_self, hpending]
    · rw [Function.update_of_ne hj]
  refine ⟨h.phases, fun j => ?_, hplace, hnothing, fun j => ?_, fun j task hj => ?_, fun d hd => ?_⟩
  · rw [hctx]
    by_cases hj : j = i
    · subst hj
      rwa [Function.update_self]
    · rw [Function.update_of_ne hj, hstage j hj]
      exact h.good j
  · rw [hsame, hran]
    exact h.ran j
  · rw [hmem]
    exact h.pending j task (hsame j ▸ hj)
  · rw [hmem]
    exact h.settled d fun j task hj => hd j task ((hsame j).trans hj)

theorem Inv.apart (h : Inv mem₀ done ph s) : Apart ph :=
  phases_apart h.phases (by simp [Apart])

theorem Inv.pending_given (h : Inv mem₀ done ph s) {task : Task γ} (hi : (s.ctx i).pending = some task) :
    ph i = .given task.data := by
  refine (h.good i).given task ?_
  unfold Context.pending at hi
  split at hi
  · cases hi
  · exact hi

/-- A thread runs its task. -/
theorem Inv.run (h : Inv mem₀ done ph s) {c : Context γ} {task : Task γ} (hpc : (s.ctx i).pc = .testing)
    (htask : (s.ctx i).task = some task) (hc : c.pc = .ran) (hgood : c.Good (ph i) (s.stage i)) :
    Inv mem₀ done ph
      { s.setCtx i c with mem := task.run s.mem, ran := Function.update s.ran i (s.ran i ++ [task]) } := by
  have hbefore : (s.ctx i).pending = some task := by simp [Context.pending, hpc, htask]
  have hafter : c.pending = none := by simp [Context.pending, hc]
  have hi := h.pending_given hbefore
  refine ⟨h.phases, fun j => ?_, h.place, h.nothing, fun j => ?_, fun j task' hj => ?_, fun d hd => ?_⟩
  · by_cases hj : j = i
    · subst hj
      show Context.Good (ph j) (s.stage j) ((s.setCtx j c).ctx j)
      simpa using hgood
    · show Context.Good (ph j) (s.stage j) ((s.setCtx i c).ctx j)
      simpa [ctx_setCtx_of_ne _ hj] using h.good j
  · by_cases hj : j = i
    · subst hj
      simpa [hafter, hbefore] using h.ran j
    · simpa [ctx_setCtx_of_ne _ hj, Function.update_of_ne hj] using h.ran j
  · by_cases hji : j = i
    · subst hji
      simp [hafter] at hj
    · have hj' : (s.ctx j).pending = some task' := by simpa [ctx_setCtx_of_ne _ hji] using hj
      have hne : task'.data ≠ task.data := fun hd =>
        hji (h.apart j i task.data (hd ▸ h.pending_given hj') hi)
      simpa [Task.run, Function.update_of_ne hne] using h.pending j task' hj'
  · by_cases hdata : d = task.data
    · subst hdata
      simpa [Task.run] using h.pending i task hbefore
    · have hs := h.settled d fun j task' hj => by
        by_cases hji : j = i
        · subst hji
          rw [hbefore] at hj
          exact Option.some.inj hj ▸ Ne.symm hdata
        · exact hd j task' (by simpa [ctx_setCtx_of_ne _ hji] using hj)
      simpa [Task.run, Function.update_of_ne hdata] using hs

/-- The signal reaches a client that sleeps on the condition of the thread, and nobody else. -/
theorem stage_signalFinished (s : Pool n γ) (i j : Fin n) :
    (s.signalFinished i).stage j = if j = i then (s.stage j).signalled else s.stage j := by
  unfold signalFinished stage
  cases htodo : s.todo with
  | nil => simp [ClientPc.signalled]
  | cons op ops =>
    cases s.pc <;> simp only <;> grind -linarith [ClientPc.signalled]

theorem place_signalFinished (h : ∀ op ops, s.todo = op :: ops → s.pc ∈ places op) (htodo : s.todo = op :: ops) :
    (s.signalFinished i).pc ∈ places op := by
  have hpc := h op ops htodo
  unfold signalFinished
  cases op with
  | wait k => by_cases hk : k = i <;> cases hpc : s.pc <;> simp_all [places, Op.thread]
  | _ => cases hk : s.pc <;> simp_all [places]

/-- A thread takes a step. -/
theorem Inv.work (h : Inv mem₀ done ph s) (hstep : s.workStep i = some s') : Inv mem₀ done ph s' := by
  obtain ⟨c, hc, ⟨task, hpc, htask, rfl⟩ | ⟨hpc, rfl⟩ | ⟨hpc, htask, rfl⟩⟩ := workStep_cases hstep
  · have hgood := (h.good i).work hc
    refine h.run hpc htask ?_ (by simpa [hpc] using hgood)
    cases hc <;> simp_all
  · have hgood := (h.good i).work hc
    have htask : (s.ctx i).pc = .testing → (s.ctx i).task = none := by simp [hpc]
    refine h.thread rfl rfl rfl (hc.pending_eq htask) ?_ (fun j hj => ?_) (fun op ops htodo => ?_) (fun htodo => ?_)
    · simpa [stage_signalFinished, hpc] using hgood
    · simp [stage_signalFinished, hj]
    · exact place_signalFinished h.place htodo
    · have htodo : s.todo = [] := htodo
      simp [signalFinished, htodo, setCtx, h.nothing htodo]
  · have hgood := (h.good i).work hc
    exact h.thread rfl rfl rfl (hc.pending_eq htask) (by simpa [hpc] using hgood) (fun _ _ => rfl) h.place h.nothing

theorem Inv.phases_snoc (h : Inv mem₀ done ph s) (hop : op.after ph = some ph') :
    Op.phases (fun _ => .absent) (done ++ [op]) = some ph' := by
  simp [phases_append, h.phases, Op.phases, hop]

/-- The state after the last step of a call that gives no task. -/
theorem Inv.finish (h : Inv mem₀ done ph s) {c : Context γ} {p : Phase}
    (hop : op.after ph = some (Function.update ph op.thread p)) (htask : ∀ j, op.taskFor j = none)
    (hctx : s'.ctx = Function.update s.ctx op.thread c) (hmem : s'.mem = s.mem) (hran : s'.ran = s.ran)
    (hpc : s'.pc = .entry) (hpending : c.pending = (s.ctx op.thread).pending)
    (hgood : c.Good p .entry) (hothers : ∀ j, j ≠ op.thread → s.stage j = .entry) :
    Inv mem₀ (done ++ [op]) (Function.update ph op.thread p) s' := by
  have hsame : ∀ j, (s'.ctx j).pending = (s.ctx j).pending := by
    intro j
    rw [hctx]
    by_cases hj : j = op.thread
    · subst hj
      rw [Function.update_self, hpending]
    · rw [Function.update_of_ne hj]
  have hfold : (done ++ [op]).foldl Op.run mem₀ = done.foldl Op.run mem₀ := by
    rw [List.foldl_append, List.foldl_cons, List.foldl_nil, run_of_no_task htask]
  refine ⟨h.phases_snoc hop, fun j => ?_, fun op ops _ => ?_, fun _ => hpc, fun j => ?_, fun j task hj => ?_,
    fun d hd => ?_⟩
  · rw [hctx, stage_entry hpc]
    by_cases hj : j = op.thread
    · subst hj
      simpa using hgood
    · rw [Function.update_of_ne hj, Function.update_of_ne hj]
      exact hothers j hj ▸ h.good j
  · rw [hpc]
    cases op <;> simp [places]
  · rw [hsame, hran]
    simpa [tasksFor, htask] using h.ran j
  · rw [hmem, hfold]
    exact h.pending j task (hsame j ▸ hj)
  · rw [hmem, hfold]
    exact h.settled d fun j task hj => hd j task ((hsame j).trans hj)

/-- The state after the last step of `fsearch_thread_pool_push_data`. -/
theorem Inv.push (h : Inv mem₀ done ph s) {task : Task γ} (htodo : s.todo = .push i task :: ops)
    (hpc : s.pc = .locked) (hop : (Op.push i task).after ph = some ph') :
    Inv mem₀ (done ++ [.push i task]) ph'
      { s.setCtx i { ({ s.ctx i with task := some task, status := .busy } : Context γ).signalStart with mutex := none }
        with todo := ops, pc := .entry } := by
  obtain ⟨⟨hfree, hdata⟩, rfl⟩ := (Option.ite_none_right_eq_some.1 hop).imp_right Option.some.inj
  have hstage : s.stage i = .locked := (stage_self htodo).trans hpc
  have hgood : (s.ctx i).Good .free .locked := hfree ▸ hstage ▸ h.good i
  have hpc' := hgood.resting (by decide)
  have hbefore : (s.ctx i).pending = none := by
    cases hp : (s.ctx i).pending with
    | none => rfl
    | some task' => simpa [hfree] using h.pending_given hp
  set c := { ({ s.ctx i with task := some task, status := .busy } : Context γ).signalStart with mutex := none } with hc
  have hafter : c.pending = some task := by
    rw [hc, Context.pending_lock, Context.pending_signalStart]
    grind -linarith [Context.pending]
  have hfold : (done ++ [Op.push i task]).foldl Op.run mem₀ = task.run (done.foldl Op.run mem₀) := by
    rw [List.foldl_append, List.foldl_cons, List.foldl_nil]
    rfl
  have hapart : ∀ j task', (s.ctx j).pending = some task' → task'.data ≠ task.data := fun j task' hj hne =>
    hdata j (hne ▸ h.pending_given hj)
  refine ⟨h.phases_snoc hop, fun j => ?_, fun op ops _ => ?_, fun _ => rfl, fun j => ?_, fun j task' hj => ?_,
    fun d hd => ?_⟩
  · rw [stage_entry rfl]
    by_cases hj : j = i
    · subst hj
      simpa using hgood.push task
    · have hother := h.good j
      rw [stage_of_ne htodo (Ne.symm hj)] at hother
      simpa [ctx_setCtx_of_ne _ hj, Function.update_of_ne hj] using hother
  · cases op <;> simp [places]
  · by_cases hj : j = i
    · subst hj
      have hran := h.ran j
      rw [hbefore, Option.toList_none, List.append_nil, tasksFor] at hran
      simp [tasksFor, taskFor, hafter, hran]
    · have hji : i ≠ j := Ne.symm hj
      simpa [tasksFor, taskFor, hji, ctx_setCtx_of_ne _ hj] using h.ran j
  · rw [hfold]
    by_cases hji : j = i
    · subst hji
      have htask : task' = task := by simpa [hafter] using hj.symm
      subst htask
      simp [Task.run, h.settled task'.data hapart]
    · have hj' : (s.ctx j).pending = some task' := by simpa [ctx_setCtx_of_ne _ hji] using hj
      simpa [Task.run, Function.update_of_ne (hapart j task' hj')] using h.pending j task' hj'
  · rw [hfold]
    have hne : d ≠ task.data := fun hd' => hd i task (by simpa using hafter) hd'.symm
    simpa [Task.run, Function.update_of_ne hne] using h.settled d fun j task' hj => hd j task' (by
      by_cases hji : j = i
      · subst hji
        simp [hbefore] at hj
      · simpa [ctx_setCtx_of_ne _ hji] using hj)

/-- A call that goes on stays within its thread. -/
theorem Inv.client (h : Inv mem₀ done ph s) {c : Context γ} {k : ClientPc} (htodo : s.todo = op :: ops)
    (hi : op.thread = i) (hk : k ∈ places op) (hpending : c.pending = (s.ctx i).pending) (hgood : c.Good (ph i) k) :
    Inv mem₀ done ph { s.setCtx i c with pc := k } := by
  subst hi
  have htodo' : ({ s.setCtx op.thread c with pc := k } : Pool n γ).todo = op :: ops := htodo
  refine h.thread rfl rfl rfl hpending ?_ (fun j hj => ?_) (fun op' ops' hops => ?_) (fun hnil => ?_)
  · rw [stage_self htodo']
    exact hgood
  · rw [stage_of_ne htodo' hj.symm, stage_of_ne htodo hj.symm]
  · rw [htodo'] at hops
    cases hops
    exact hk
  · rw [htodo'] at hnil
    cases hnil

/-- A step of the call `op` leaves the client in the call, or ends the call. -/
def Goes (mem₀ : ℕ → γ) (done : List (Op n γ)) (ph : Fin n → Phase) (op : Op n γ) (ops : List (Op n γ))
    (ph' : Fin n → Phase) (s' : Pool n γ) : Prop :=
  (s'.todo = op :: ops ∧ Inv mem₀ done ph s') ∨ (s'.todo = ops ∧ Inv mem₀ (done ++ [op]) ph' s')

/-- The client takes the mutex of a thread. -/
theorem Inv.lock (h : Inv mem₀ done ph s) (htodo : s.todo = op :: ops) (hi : op.thread = i)
    (hp : (ph i).Present) (hpc : s.pc = .entry ∨ s.pc = .woken) (hlocked : .locked ∈ places op)
    (hstep : s.lockStep i = some s') : Goes mem₀ done ph op ops ph' s' := by
  subst hi
  obtain ⟨hfree, rfl⟩ := (Option.ite_none_right_eq_some.1 hstep).imp_right Option.some.inj
  have hgood := h.good op.thread
  rw [stage_self htodo] at hgood
  exact .inl ⟨htodo, h.client htodo rfl hlocked rfl (hgood.lock hp hpc hfree)⟩

/-- `thread_context_new` and the loop behind it. -/
theorem Inv.callNew (h : Inv mem₀ done ph s) (htodo : s.todo = .new i :: ops)
    (hop : Op.after ph (.new i : Op n γ) = some ph') (hstep : s.callStep = some s') :
    Goes mem₀ done ph (.new i) ops ph' s' := by
  obtain ⟨habsent, rfl⟩ := (Option.ite_none_right_eq_some.1 hop).imp_right Option.some.inj
  have hothers : ∀ j, j ≠ i → s.stage j = .entry := fun j hj => stage_of_ne htodo hj.symm
  have hgood : (s.ctx i).Good (ph i) s.pc := stage_self htodo ▸ h.good i
  simp only [callStep, htodo] at hstep
  split at hstep
  · next hpc =>
    cases hstep
    rw [hpc] at hgood
    refine .inl ⟨htodo, h.client htodo rfl (by simp [places]) ?_ (hgood.new habsent)⟩
    rw [hgood.fresh habsent (by simp)]
    rfl
  · next hpc =>
    split at hstep <;> cases hstep
    rw [hpc] at hgood
    exact .inr ⟨rfl, h.finish hop (fun _ => rfl) (Function.update_eq_self _ _).symm rfl rfl rfl rfl
      (hgood.created ‹_›) hothers⟩
  · cases hstep

/-- `fsearch_thread_pool_push_data` -/
theorem Inv.callPush (h : Inv mem₀ done ph s) {task : Task γ} (htodo : s.todo = .push i task :: ops)
    (hop : (Op.push i task).after ph = some ph') (hstep : s.callStep = some s') :
    Goes mem₀ done ph (.push i task) ops ph' s' := by
  have hfree := (Option.ite_none_right_eq_some.1 hop).1.1
  have hp : (ph i).Present := by simp [hfree, Phase.Present]
  simp only [callStep, htodo] at hstep
  split at hstep
  · next hpc => exact h.lock htodo rfl hp (.inl hpc) (by simp [places]) hstep
  · next hpc =>
    cases hstep
    exact .inr ⟨rfl, h.push htodo hpc hop⟩
  · cases hstep

/-- `fsearch_thread_pool_wait_for_thread` -/
theorem Inv.callWait (h : Inv mem₀ done ph s) (htodo : s.todo = .wait i :: ops)
    (hop : Op.after ph (.wait i : Op n γ) = some ph') (hstep : s.callStep = some s') :
    Goes mem₀ done ph (.wait i) ops ph' s' := by
  obtain ⟨hp, rfl⟩ := (Option.ite_none_right_eq_some.1 hop).imp_right Option.some.inj
  have hothers : ∀ j, j ≠ i → s.stage j = .entry := fun j hj => stage_of_ne htodo hj.symm
  have hgood : (s.ctx i).Good (ph i) s.pc := stage_self htodo ▸ h.good i
  simp only [callStep, htodo] at hstep
  split at hstep
  · next hpc => exact h.lock htodo rfl hp (.inl hpc) (by simp [places]) hstep
  · next hpc => exact h.lock htodo rfl hp (.inr hpc) (by simp [places]) hstep
  · next hpc =>
    rw [hpc] at hgood
    rw [ctx_setCtx_self] at hstep
    split at hstep
    · next hbusy =>
      cases hstep
      exact .inl ⟨htodo, h.client htodo rfl (by simp [places]) rfl (hgood.sleep hbusy)⟩
    · next hbusy =>
      cases hstep
      exact .inr ⟨rfl, h.finish hop (fun _ => rfl) rfl rfl rfl rfl rfl (hgood.finished hp hbusy) hothers⟩
  · cases hstep

/-- `thread_context_free` -/
theorem Inv.callFree (h : Inv mem₀ done ph s) (htodo : s.todo = .free i :: ops)
    (hop : Op.after ph (.free i : Op n γ) = some ph') (hstep : s.callStep = some s') :
    Goes mem₀ done ph (.free i) ops ph' s' := by
  obtain ⟨hp, rfl⟩ := (Option.ite_none_right_eq_some.1 hop).imp_right Option.some.inj
  have hothers : ∀ j, j ≠ i → s.stage j = .entry := fun j hj => stage_of_ne htodo hj.symm
  have hgood : (s.ctx i).Good (ph i) s.pc := stage_self htodo ▸ h.good i
  simp only [callStep, htodo] at hstep
  split at hstep
  · next hpc => exact h.lock htodo rfl hp (.inl hpc) (by simp [places]) hstep
  · next hpc =>
    cases hstep
    rw [hpc] at hgood
    refine .inl ⟨htodo, h.client htodo rfl (by simp [places]) ?_ (hgood.terminate hp)⟩
    rw [Context.pending_lock, Context.pending_signalStart]
    rfl
  · next hpc =>
    split at hstep <;> cases hstep
    rw [hpc] at hgood
    exact .inr ⟨rfl, h.finish hop (fun _ => rfl) (Function.update_eq_self _ _).symm rfl rfl rfl rfl
      (hgood.joined ‹_›) hothers⟩
  · cases hstep

/-- The client takes a step. -/
theorem Inv.call (h : Inv mem₀ done ph s) (htodo : s.todo = op :: ops) (hop : op.after ph = some ph')
    (hstep : s.callStep = some s') : Goes mem₀ done ph op ops ph' s' := by
  cases op with
  | new i => exact h.callNew htodo hop hstep
  | push i task => exact h.callPush htodo hop hstep
  | wait i => exact h.callWait htodo hop hstep
  | free i => exact h.callFree htodo hop hstep

/-- A thread wakes without a signal. -/
theorem Inv.wakeWorker (h : Inv mem₀ done ph s) (hpc : (s.ctx i).pc = .asleep) :
    Inv mem₀ done ph (s.setCtx i { s.ctx i with pc := .woken }) := by
  refine h.thread rfl rfl rfl ?_ ((h.good i).wakeWorker hpc) (fun _ _ => rfl) h.place h.nothing
  simp [Context.pending, hpc]

/-- The client wakes without a signal. -/
theorem Inv.wakeClient (h : Inv mem₀ done ph s) (htodo : s.todo = op :: ops) (hpc : s.pc = .asleep) :
    Inv mem₀ done ph { s with pc := .woken } := by
  have hgood := h.good op.thread
  rw [stage_self htodo, hpc] at hgood
  have hwoken : .woken ∈ places op := by
    have hplace := h.place op ops htodo
    cases op <;> simp_all [places]
  have hclient := h.client htodo rfl hwoken rfl hgood.wakeClient
  rwa [setCtx, Function.update_eq_self] at hclient

/-- The first state. -/
theorem inv_initial (mem₀ : ℕ → γ) (prog : List (Op n γ)) : Inv mem₀ [] (fun _ => .absent) (initial mem₀ prog) := by
  refine ⟨rfl, fun i => ?_, fun op ops _ => ?_, fun _ => rfl, fun i => rfl, fun i task hi => ?_, fun d _ => rfl⟩
  · rw [stage_entry rfl]
    constructor <;> simp [initial, Context.fresh]
  · cases op <;> simp [initial, places]
  · simp [initial, Context.fresh, Context.pending] at hi

variable {prog : List (Op n γ)}

/-- A step leads on from what holds of the pool. -/
theorem Inv.step (h : Inv mem₀ done ph s) (hfits : Fits (done ++ s.todo)) {a : Act n} (hstep : s.step a = some s') :
    ∃ done' ph', done ++ s.todo = done' ++ s'.todo ∧ Inv mem₀ done' ph' s' := by
  cases a with
  | work i =>
    have hs' := h.work hstep
    obtain ⟨c, -, ⟨task, -, -, rfl⟩ | ⟨-, rfl⟩ | ⟨-, -, rfl⟩⟩ := workStep_cases hstep <;> exact ⟨done, ph, rfl, hs'⟩
  | call =>
    cases htodo : s.todo with
    | nil => simp [Pool.step, callStep, htodo] at hstep
    | cons op ops =>
      obtain ⟨ph', hop⟩ := after_of_fits (htodo ▸ hfits) h.phases
      obtain ⟨htodo', hs'⟩ | ⟨htodo', hs'⟩ := h.call htodo hop hstep
      · exact ⟨done, ph, by rw [htodo'], hs'⟩
      · exact ⟨done ++ [op], ph', by simp [htodo'], hs'⟩
  | poll =>
    obtain rfl := eq_of_pollStep hstep
    exact ⟨done, ph, rfl, h⟩
  | wakeWorker i =>
    obtain ⟨hpc, rfl⟩ := (Option.ite_none_right_eq_some.1 hstep).imp_right Option.some.inj
    exact ⟨done, ph, rfl, h.wakeWorker hpc⟩
  | wakeClient =>
    obtain ⟨hpc, rfl⟩ := (Option.ite_none_right_eq_some.1 hstep).imp_right Option.some.inj
    have hne : s.todo ≠ [] := fun hnil => by simp [h.nothing hnil] at hpc
    obtain ⟨op, ops, htodo⟩ := List.exists_cons_of_ne_nil hne
    exact ⟨done, ph, rfl, h.wakeClient htodo hpc⟩

variable {prog : List (Op n γ)}

/-- Every state that a run of a program reaches, if the program keeps to the rules. -/
theorem Reachable.inv (hs : Reachable mem₀ prog s) (hfits : Fits prog) :
    ∃ done ph, prog = done ++ s.todo ∧ Inv mem₀ done ph s := by
  obtain ⟨acts, hacts⟩ := hs
  refine Steps.inv_of_run (fun t => ∃ done ph, prog = done ++ t.todo ∧ Inv mem₀ done ph t) ?_
    ⟨[], _, rfl, inv_initial mem₀ prog⟩ hacts
  rintro t a t' ⟨done, ph, hprog, h⟩ hstep
  subst hprog
  exact h.step hfits hstep

/-- **Tasks run as if one after another**: whatever order the threads and the client go in, each thread has run the
tasks it was given, in that order and each once, but for one at most that the client has not waited for; and what no
task in the hands of a thread works on is as if each task had been run when it was given. -/
theorem reachable_runs (hfits : Fits prog) (hs : Reachable mem₀ prog s) :
    ∃ done ph, prog = done ++ s.todo ∧ Op.phases (fun _ => .absent) done = some ph ∧
      (∀ i, s.ran i <+: tasksFor i done ∧ (tasksFor i done).length ≤ (s.ran i).length + 1 ∧
        ((∀ d, ph i ≠ .given d) → s.ran i = tasksFor i done)) ∧
      ∀ d, (∀ i, ph i ≠ .given d) → s.mem d = done.foldl Op.run mem₀ d := by
  obtain ⟨done, ph, hprog, h⟩ := hs.inv hfits
  refine ⟨done, ph, hprog, h.phases, fun i => ?_, fun d hd => ?_⟩
  · have hran := h.ran i
    refine ⟨hran ▸ List.prefix_append _ _, ?_, fun hfree => ?_⟩
    · rw [hran, List.length_append]
      cases (s.ctx i).pending <;> simp
    · cases hpending : (s.ctx i).pending with
      | none => simpa [hpending] using hran.symm
      | some task => exact absurd (h.pending_given hpending) (hfree _)
  · exact (h.settled d fun i task hi hne => hd i (hne ▸ h.pending_given hi)).symm

/-- Two threads with a task each, on a memory of numbers. -/
def sampleProgram : List (Op 2 ℕ) :=
  [.new 0, .new 1, .push 0 ⟨(· + 1), 0⟩, .push 1 ⟨(· * 2), 1⟩, .wait 0, .wait 1]

/-- The client polls once too early; the second thread runs its task first; the first one wakes once without a
signal. -/
def sampleActs : List (Act 2) :=
  [.call, .poll, .work 0, .work 0, .call, .call, .work 1, .work 1, .call, .work 0, .work 1, .wakeWorker 0, .call,
    .call, .call, .call, .work 1, .work 1, .work 1, .work 0, .work 0, .work 0]

theorem reachable_runs_sample : ∃ s : Pool 2 ℕ, Reachable (fun _ => 3) sampleProgram s ∧ s.todo.length = 2 ∧
    ∃ done ph, sampleProgram = done ++ s.todo ∧ Op.phases (fun _ => .absent) done = some ph ∧
      (∀ i, s.ran i <+: tasksFor i done ∧ (tasksFor i done).length ≤ (s.ran i).length + 1 ∧
        ((∀ d, ph i ≠ .given d) → s.ran i = tasksFor i done)) ∧
      ∀ d, (∀ i, ph i ≠ .given d) → s.mem d = done.foldl Op.run (fun _ => 3) d := by
  have hrun : (Steps.run step (initial (fun _ => 3) sampleProgram) sampleActs).isSome := by decide
  have htodo : (Steps.run step (initial (fun _ => 3) sampleProgram) sampleActs).map (fun s => s.todo.length) =
      some 2 := by
    decide
  obtain ⟨s, hs⟩ := Option.isSome_iff_exists.1 hrun
  refine ⟨s, ⟨sampleActs, hs⟩, ?_, reachable_runs (by decide) ⟨sampleActs, hs⟩⟩
  rw [hs] at htodo
  exact Option.some.inj htodo

/-- A client that gives a thread the next task before it has waited loses the first. -/
def hastyProgram : List (Op 1 ℕ) := [.new 0, .push 0 ⟨(· + 1), 0⟩, .push 0 ⟨(· * 2), 1⟩, .wait 0]

theorem exists_task_lost : ∃ s, Reachable (fun _ => 3) hastyProgram s ∧ s.todo = [] ∧ s.mem 0 = 3 := by
  let acts : List (Act 1) :=
    [.call, .work 0, .work 0, .call, .work 0, .call, .call, .call, .call, .work 0, .work 0, .work 0, .work 0, .work 0,
      .call, .call]
  have hrun : (Steps.run step (initial (fun _ => 3) hastyProgram) acts).map (fun s => (s.todo.length, s.mem 0)) =
      some (0, 3) := by decide
  obtain ⟨s, hs, hend⟩ := Option.map_eq_some_iff.1 hrun
  exact ⟨s, ⟨acts, hs⟩, List.eq_nil_of_length_eq_zero (congrArg Prod.fst hend), congrArg Prod.snd hend⟩

end Pool

end DeepinAnything.ThreadPool
