import DeepinAnything.Lib.Steps
import Mathlib.Logic.Function.Basic

/-!
# The thread pool (`thread_pool.c`)

Each thread of the pool has a context with a mutex and two conditions. The thread sleeps on `start_cond` until it is
given a task, runs it under the mutex and signals `finished_cond`; the client gives the tasks and waits for them. A
signal wakes a sleeper if there is one and is lost otherwise, and a sleeper may wake without one.

The steps are those at which the mutex changes hands, a sleeper is woken, or something changes that is read without
the mutex: `thread_waited`, and what a task works on.
-/

namespace DeepinAnything.ThreadPool

variable {γ : Type*} {n : ℕ}

/-- `FsearchThreadStatus` -/
inductive Status where
  | idle
  | busy
  | finished
deriving DecidableEq, Repr

/-- `thread_func` and the address of `thread_data`. -/
structure Task (γ : Type*) where
  func : γ → γ
  data : ℕ

/-- What the tasks work on, after a task. -/
def Task.run (mem : ℕ → γ) (task : Task γ) : ℕ → γ :=
  Function.update mem task.data (task.func (mem task.data))

/-- What a thread of the pool does next: it has not been created, takes the mutex, looks at `terminate`, goes to sleep
(`thread_waited` has been set), sleeps, has been woken and takes the mutex again, looks at `thread_data`, comes back
from `thread_func`, or has ended. -/
inductive WorkerPc where
  | absent
  | start
  | check
  | ready
  | asleep
  | woken
  | testing
  | ran
  | ended
deriving DecidableEq, Repr

/-- Who holds a mutex. -/
inductive Owner where
  | worker
  | client
deriving DecidableEq, Repr

/-- `thread_context_t`, with the place its thread is at; `task` is `none` where `thread_data` is null. -/
structure Context (γ : Type*) where
  pc : WorkerPc
  mutex : Option Owner
  task : Option (Task γ)
  threadWaited : Bool
  status : Status
  terminate : Bool

namespace Context

/-- A context before `thread_context_new`. -/
def fresh : Context γ := ⟨.absent, none, none, false, .idle, false⟩

variable (c : Context γ)

/-- `g_cond_signal` of `start_cond` -/
def signalStart : Context γ := if c.pc = .asleep then { c with pc := .woken } else c

/-- `fsearch_thread_pool_thread` up to the next step, if it can go on. A task is run by `Pool.step`. -/
def work : Option (Context γ) :=
  match c.pc with
  | .absent | .asleep | .ended => none
  | .start => if c.mutex = none then some { c with pc := .check, mutex := some .worker } else none
  | .check =>
    if c.terminate then some { c with pc := .ended, mutex := none }
    else some { c with pc := .ready, threadWaited := true }
  | .ready => some { c with pc := .asleep, mutex := none }
  | .woken =>
    if c.mutex = none then some { c with pc := .testing, mutex := some .worker, status := .busy } else none
  | .testing =>
    match c.task with
    | some _ => some { c with pc := .ran }
    | none => some { c with pc := .check, status := .idle }
  | .ran => some { c with pc := .check, task := none, status := .idle }

end Context

/-! ## The client -/

/-- What a client calls for a thread: `thread_context_new` and the loop that waits for `thread_waited`,
`fsearch_thread_pool_push_data`, `fsearch_thread_pool_wait_for_thread` and `thread_context_free`. -/
inductive Op (n : ℕ) (γ : Type*) where
  | new (i : Fin n)
  | push (i : Fin n) (task : Task γ)
  | wait (i : Fin n)
  | free (i : Fin n)

/-- Where the client is in a call: at its beginning, waiting for `thread_waited`, holding the mutex, asleep on
`finished_cond`, woken, or in `g_thread_join`. -/
inductive ClientPc where
  | entry
  | polling
  | locked
  | asleep
  | woken
  | joining
deriving DecidableEq, Repr

/-- The thread a call is for. -/
def Op.thread : Op n γ → Fin n
  | .new i | .push i _ | .wait i | .free i => i

/-- The pool, what the tasks work on, the calls the client has before it, and what each thread has run. -/
structure Pool (n : ℕ) (γ : Type*) where
  ctx : Fin n → Context γ
  mem : ℕ → γ
  todo : List (Op n γ)
  pc : ClientPc
  ran : Fin n → List (Task γ)

/-- What happens next: a thread of the pool or the client goes on, the client looks at `thread_waited` too early, or
one of them wakes without a signal. -/
inductive Act (n : ℕ) where
  | work (i : Fin n)
  | call
  | poll
  | wakeWorker (i : Fin n)
  | wakeClient
deriving DecidableEq

/-- Nobody has signalled. -/
def Act.spurious : Act n → Bool
  | .wakeWorker _ | .wakeClient => true
  | .work _ | .call | .poll => false

namespace Pool

variable (s : Pool n γ)

/-- A context has changed. -/
def setCtx (i : Fin n) (c : Context γ) : Pool n γ := { s with ctx := Function.update s.ctx i c }

@[simp] theorem ctx_setCtx_self (i : Fin n) (c : Context γ) : (s.setCtx i c).ctx i = c := Function.update_self _ _ _

theorem ctx_setCtx_of_ne {i j : Fin n} (h : j ≠ i) (c : Context γ) : (s.setCtx i c).ctx j = s.ctx j :=
  Function.update_of_ne h _ _

@[simp] theorem mem_setCtx (i : Fin n) (c : Context γ) : (s.setCtx i c).mem = s.mem := rfl

@[simp] theorem ran_setCtx (i : Fin n) (c : Context γ) : (s.setCtx i c).ran = s.ran := rfl

/-- `g_cond_signal` of `finished_cond` -/
def signalFinished (i : Fin n) : Pool n γ :=
  { s with
    pc := match s.todo, s.pc with
      | op :: _, .asleep => if op.thread = i then .woken else .asleep
      | _, pc => pc }

/-- A thread of the pool goes on. -/
def workStep (i : Fin n) : Option (Pool n γ) :=
  (s.ctx i).work.map fun c =>
    match (s.ctx i).pc, (s.ctx i).task with
    | .testing, some task =>
      { s.setCtx i c with
        mem := task.run s.mem
        ran := Function.update s.ran i (s.ran i ++ [task]) }
    | .ran, _ => (s.setCtx i c).signalFinished i
    | _, _ => s.setCtx i c

/-- The client takes the mutex of a thread. -/
def lockStep (i : Fin n) : Option (Pool n γ) :=
  if (s.ctx i).mutex = none then
    some { s.setCtx i { s.ctx i with mutex := some .client } with pc := .locked }
  else none

/-- A round of the loop behind `thread_context_new` that finds `thread_waited` unset: the client sleeps a while, and
looks again. -/
def pollStep : Option (Pool n γ) :=
  match s.todo, s.pc with
  | .new i :: _, .polling => if (s.ctx i).threadWaited then none else some s
  | _, _ => none

theorem eq_of_pollStep {s s' : Pool n γ} (h : s.pollStep = some s') : s' = s := by
  unfold pollStep at h
  split at h
  · split at h
    · cases h
    · exact (Option.some.inj h).symm
  · cases h

/-- The client goes on. -/
def callStep : Option (Pool n γ) :=
  match s.todo with
  | [] => none
  | .new i :: ops =>
    match s.pc with
    | .entry => some { s.setCtx i { Context.fresh with pc := .start } with pc := .polling }
    | .polling => if (s.ctx i).threadWaited then some { s with todo := ops, pc := .entry } else none
    | _ => none
  | .push i task :: ops =>
    match s.pc with
    | .entry => s.lockStep i
    | .locked =>
      let c := { s.ctx i with task := some task, status := .busy }.signalStart
      some { s.setCtx i { c with mutex := none } with todo := ops, pc := .entry }
    | _ => none
  | .wait i :: ops =>
    match s.pc with
    | .entry | .woken => s.lockStep i
    | .locked =>
      let s := s.setCtx i { s.ctx i with mutex := none }
      if (s.ctx i).status = .busy then some { s with pc := .asleep } else some { s with todo := ops, pc := .entry }
    | _ => none
  | .free i :: ops =>
    match s.pc with
    | .entry => s.lockStep i
    | .locked =>
      let c := { s.ctx i with terminate := true }.signalStart
      some { s.setCtx i { c with mutex := none } with pc := .joining }
    | .joining => if (s.ctx i).pc = .ended then some { s with todo := ops, pc := .entry } else none
    | _ => none

/-- One step, if it can happen. -/
def step : Act n → Option (Pool n γ)
  | .work i => s.workStep i
  | .call => s.callStep
  | .poll => s.pollStep
  | .wakeWorker i =>
    if (s.ctx i).pc = .asleep then some (s.setCtx i { s.ctx i with pc := .woken }) else none
  | .wakeClient => if s.pc = .asleep then some { s with pc := .woken } else none

/-- No thread has been created, and the client has a program before it. -/
def initial (mem : ℕ → γ) (prog : List (Op n γ)) : Pool n γ :=
  ⟨fun _ => .fresh, mem, prog, .entry, fun _ => []⟩

/-- The states that runs of a program reach. -/
def Reachable (mem : ℕ → γ) (prog : List (Op n γ)) (s : Pool n γ) : Prop :=
  ∃ acts, Steps.run step (initial mem prog) acts = some s

end Pool

end DeepinAnything.ThreadPool
