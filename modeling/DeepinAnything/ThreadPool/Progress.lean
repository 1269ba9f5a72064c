import DeepinAnything.ThreadPool.Invariant
import Mathlib.Algebra.BigOperators.Fin

/-!
# The thread pool comes to an end

While the client has calls before it, somebody can go on without being woken for nothing: no signal gets lost that
anybody waits for. And each place a thread or the client can be at has a rank that its steps lower, so that a run takes
a bounded number of steps for each call, and for each time that somebody is woken for nothing.
-/

namespace DeepinAnything.ThreadPool

variable {γ : Type*} {n : ℕ}

/-! ## Ranks -/

/-- How many steps a thread can take before it sleeps or ends; the one behind a task also wakes the client. -/
def WorkerPc.rank : WorkerPc → ℕ
  | .absent | .asleep | .ended => 0
  | .ready => 1
  | .check => 2
  | .start => 3
  | .ran => 5
  | .testing => 6
  | .woken => 7

/-- How many steps a call can lead to that has not begun, those of the thread it wakes included. -/
def Op.rank : Op n γ → ℕ
  | .new _ => 5
  | .push _ _ => 9
  | .wait _ => 2
  | .free _ => 10

/-- How many steps the call in hand can lead to. -/
def Op.rankAt (op : Op n γ) : ClientPc → ℕ
  | .entry => op.rank
  | .locked => op.rank - 1
  | .woken => 2
  | .polling | .joining => 1
  | .asleep => 0

theorem Op.rank_le (op : Op n γ) : op.rank ≤ 10 := by
  cases op <;> simp [Op.rank]

theorem Context.rank_signalStart_le (c : Context γ) : c.signalStart.pc.rank ≤ c.pc.rank + 7 := by
  unfold Context.signalStart
  split
  · simp [WorkerPc.rank]
  · omega

/-- A step of a thread lowers its rank, and by three at least when it signals. -/
theorem Context.Works.rank_lt {c c' : Context γ} (h : c.Works c') :
    c'.pc.rank + (if c.pc = .ran then 3 else 1) ≤ c.pc.rank := by
  cases h <;> simp [WorkerPc.rank, *]

/-- What a step takes that nobody is brought on by. -/
def Act.surplus : Act n → ℕ
  | .wakeWorker _ | .wakeClient => 8
  | .poll => 1
  | .work _ | .call => 0

namespace Pool

variable {s s' : Pool n γ} {i : Fin n}

/-- What the calls before the client can lead to. -/
def rankTodo : List (Op n γ) → ClientPc → ℕ
  | [], _ => 0
  | op :: ops, k => op.rankAt k + (ops.map Op.rank).sum

/-- What the threads have before them. -/
def rankThreads (s : Pool n γ) : ℕ := ∑ i, (s.ctx i).pc.rank

/-- What the threads and the client have before them. -/
def rank (s : Pool n γ) : ℕ := s.rankThreads + rankTodo s.todo s.pc

theorem rankThreads_setCtx (s : Pool n γ) (i : Fin n) (c : Context γ) :
    (s.setCtx i c).rankThreads + (s.ctx i).pc.rank = s.rankThreads + c.pc.rank := by
  unfold rankThreads
  rw [← Finset.add_sum_erase _ _ (Finset.mem_univ i), ← Finset.add_sum_erase _ _ (Finset.mem_univ i), ctx_setCtx_self]
  have hothers : ∑ j ∈ Finset.univ.erase i, ((s.setCtx i c).ctx j).pc.rank =
      ∑ j ∈ Finset.univ.erase i, (s.ctx j).pc.rank :=
    Finset.sum_congr rfl fun j hj => by rw [ctx_setCtx_of_ne _ (Finset.ne_of_mem_erase hj)]
  omega

theorem rankTodo_entry (ops : List (Op n γ)) : rankTodo ops .entry = (ops.map Op.rank).sum := by
  cases ops <;> simp [rankTodo, Op.rankAt]

theorem rankTodo_signalFinished_le (s : Pool n γ) (i : Fin n) :
    rankTodo s.todo (s.signalFinished i).pc ≤ rankTodo s.todo s.pc + 2 := by
  unfold signalFinished
  cases s.todo with
  | nil => simp [rankTodo]
  | cons op ops =>
    cases s.pc <;> simp only [rankTodo] <;> try omega
    split <;> simp only [Op.rankAt] <;> omega

/-- A step of a thread. -/
theorem rank_workStep (h : s.workStep i = some s') : s'.rank + 1 ≤ s.rank := by
  obtain ⟨c, hc, ⟨task, hpc, -, rfl⟩ | ⟨hpc, rfl⟩ | ⟨hpc, -, rfl⟩⟩ := workStep_cases h
  · have hlt := hc.rank_lt
    have hsum := rankThreads_setCtx s i c
    rw [if_neg (by simp [hpc])] at hlt
    show (s.setCtx i c).rankThreads + rankTodo s.todo s.pc + 1 ≤ s.rankThreads + rankTodo s.todo s.pc
    omega
  · have hlt := hc.rank_lt
    have hsum := rankThreads_setCtx s i c
    have htodo := rankTodo_signalFinished_le (s.setCtx i c) i
    rw [if_pos hpc] at hlt
    show (s.setCtx i c).rankThreads + rankTodo s.todo ((s.setCtx i c).signalFinished i).pc + 1 ≤
      s.rankThreads + rankTodo s.todo s.pc
    have htodo' : rankTodo s.todo ((s.setCtx i c).signalFinished i).pc ≤ rankTodo s.todo s.pc + 2 := htodo
    omega
  · have hlt := hc.rank_lt
    have hsum := rankThreads_setCtx s i c
    rw [if_neg hpc] at hlt
    show (s.setCtx i c).rankThreads + rankTodo s.todo s.pc + 1 ≤ s.rankThreads + rankTodo s.todo s.pc
    omega

/-- The client moves on, within a call or to the next, and the thread of the call with it. -/
theorem rank_client {op : Op n γ} {ops : List (Op n γ)} (htodo : s.todo = op :: ops) (i : Fin n) (c : Context γ)
    (todo : List (Op n γ)) (k : ClientPc)
    (h : c.pc.rank + rankTodo todo k + 1 ≤ (s.ctx i).pc.rank + rankTodo (op :: ops) s.pc) :
    ({ s.setCtx i c with todo := todo, pc := k } : Pool n γ).rank + 1 ≤ s.rank := by
  have hsum := rankThreads_setCtx s i c
  show (s.setCtx i c).rankThreads + rankTodo todo k + 1 ≤ s.rankThreads + rankTodo s.todo s.pc
  rw [htodo]
  omega

theorem rank_lockStep {op : Op n γ} {ops : List (Op n γ)} (htodo : s.todo = op :: ops)
    (hlt : op.rankAt .locked < op.rankAt s.pc) (h : s.lockStep i = some s') : s'.rank + 1 ≤ s.rank := by
  obtain ⟨-, rfl⟩ := (Option.ite_none_right_eq_some.1 h).imp_right Option.some.inj
  have hrank := rank_client htodo i { s.ctx i with mutex := some .client } (op :: ops) .locked
    (by simp only [rankTodo]; omega)
  rwa [← htodo] at hrank

/-- A step of the client. -/
theorem rank_callStep (h : s.callStep = some s') : s'.rank + 1 ≤ s.rank := by
  unfold callStep at h
  split at h
  case h_1 => cases h
  case h_2 i ops htodo =>
    split at h
    · next hpc =>
      cases h
      have hrank := rank_client htodo i { (Context.fresh : Context γ) with pc := .start } (.new i :: ops) .polling
        (by
          have hstart : WorkerPc.start.rank = 3 := rfl
          simp only [rankTodo, Op.rankAt, Op.rank, hpc]
          omega)
      rwa [← htodo] at hrank
    · next hpc =>
      split at h <;> cases h
      have hrank := rank_client htodo i (s.ctx i) ops .entry
        (by rw [rankTodo_entry]; simp only [rankTodo, Op.rankAt, hpc]; omega)
      rwa [setCtx, Function.update_eq_self] at hrank
    · cases h
  case h_3 i task ops htodo =>
    split at h
    · next hpc => exact rank_lockStep htodo (by simp [Op.rankAt, Op.rank, hpc]) h
    · next hpc =>
      cases h
      refine rank_client htodo i _ ops .entry ?_
      have hsignal : ({ s.ctx i with task := some task, status := .busy } : Context γ).signalStart.pc.rank ≤
        (s.ctx i).pc.rank + 7 := Context.rank_signalStart_le _
      rw [rankTodo_entry]
      simp only [rankTodo, Op.rankAt, Op.rank, hpc] at hsignal ⊢
      omega
    · cases h
  case h_4 i ops htodo =>
    split at h
    · next hpc => exact rank_lockStep htodo (by simp [Op.rankAt, Op.rank, hpc]) h
    · next hpc => exact rank_lockStep htodo (by simp [Op.rankAt, Op.rank, hpc]) h
    · next hpc =>
      simp only at h
      split at h <;> cases h
      · have hrank := rank_client htodo i { s.ctx i with mutex := none } (.wait i :: ops) .asleep
          (by simp only [rankTodo, Op.rankAt, Op.rank, hpc]; omega)
        rwa [← htodo] at hrank
      · refine rank_client htodo i _ ops .entry ?_
        rw [rankTodo_entry]
        simp only [rankTodo, Op.rankAt, Op.rank, hpc]
        omega
    · cases h
  case h_5 i ops htodo =>
    split at h
    · next hpc => exact rank_lockStep htodo (by simp [Op.rankAt, Op.rank, hpc]) h
    · next hpc =>
      cases h
      have hsignal : ({ s.ctx i with terminate := true } : Context γ).signalStart.pc.rank ≤ (s.ctx i).pc.rank + 7 :=
        Context.rank_signalStart_le _
      have hrank := rank_client htodo i
        { ({ s.ctx i with terminate := true } : Context γ).signalStart with mutex := none }
        (.free i :: ops) .joining (by simp only [rankTodo, Op.rankAt, Op.rank, hpc] at hsignal ⊢; omega)
      rwa [← htodo] at hrank
    · next hpc =>
      split at h <;> cases h
      have hrank := rank_client htodo i (s.ctx i) ops .entry
        (by rw [rankTodo_entry]; simp only [rankTodo, Op.rankAt, hpc]; omega)
      rwa [setCtx, Function.update_eq_self] at hrank
    · cases h

/-- A step; one that wakes somebody for nothing raises the rank by seven at most, and a poll that comes too early
leaves it. -/
theorem rank_step {a : Act n} (h : s.step a = some s') : s'.rank + 1 ≤ s.rank + a.surplus := by
  cases a with
  | work i => exact rank_workStep h
  | call => exact rank_callStep h
  | poll =>
    obtain rfl := eq_of_pollStep h
    exact le_rfl
  | wakeWorker i =>
    obtain ⟨hpc, rfl⟩ := (Option.ite_none_right_eq_some.1 h).imp_right Option.some.inj
    have hsum : (s.setCtx i { s.ctx i with pc := .woken }).rankThreads + (s.ctx i).pc.rank = s.rankThreads + 7 :=
      rankThreads_setCtx s i _
    show (s.setCtx i { s.ctx i with pc := .woken }).rankThreads + rankTodo s.todo s.pc + 1 ≤
      s.rankThreads + rankTodo s.todo s.pc + 8
    omega
  | wakeClient =>
    obtain ⟨hpc, rfl⟩ := (Option.ite_none_right_eq_some.1 h).imp_right Option.some.inj
    show s.rankThreads + rankTodo s.todo .woken + 1 ≤ s.rankThreads + rankTodo s.todo s.pc + 8
    cases s.todo <;> simp [rankTodo, Op.rankAt, hpc]
    omega

/-! ## Nobody waits for nothing -/

end Pool

/-- What the client finds at a thread that rests, where it does not hold the mutex. -/
structure Context.Rests (k : ClientPc) (c : Context γ) : Prop where
  mutex : c.mutex = none
  waited : k = .polling → c.threadWaited = true
  not_asleep : k ≠ .asleep
  ended : k = .joining → c.pc = .ended

theorem Context.Good.rests {p : Phase} {k : ClientPc} {c : Context γ} (h : c.Good p k) (hk : k ≠ .locked)
    (hpc : c.pc = .absent ∨ c.pc = .asleep ∨ c.pc = .ended) : c.Rests k := by
  obtain ⟨h1, h2, h3, h4, h5, h6, h7, h8, h9, h10, h11, h12, h13, h14, h15, h16⟩ := h
  have hmutex : c.mutex = none := by
    cases hm : c.mutex with
    | none => rfl
    | some o => cases o <;> grind -linarith
  constructor <;> grind -linarith

namespace Pool

variable {s s' : Pool n γ} {i : Fin n}

variable {mem₀ : ℕ → γ} {done : List (Op n γ)} {ph ph' : Fin n → Phase} {op : Op n γ} {ops : List (Op n γ)}

/-- A thread that neither sleeps nor has ended can go on, unless the client holds its mutex. -/
theorem Inv.work_isSome (h : Inv mem₀ done ph s) (hclient : (s.ctx i).mutex ≠ some .client)
    (hpc : (s.ctx i).pc ≠ .absent ∧ (s.ctx i).pc ≠ .asleep ∧ (s.ctx i).pc ≠ .ended) : (s.step (.work i)).isSome := by
  have hworker := (h.good i).worker_holds
  have hfree : (s.ctx i).mutex = none ∨ (s.ctx i).mutex = some .worker := by
    cases hm : (s.ctx i).mutex with
    | none => exact .inl rfl
    | some o => cases o <;> simp_all
  have hwork : (s.ctx i).work.isSome := by
    unfold Context.work
    cases hp : (s.ctx i).pc <;> simp_all
    · split <;> rfl
    · split <;> rfl
  show (s.workStep i).isSome
  rwa [workStep, Option.isSome_map]

/-- While the client has calls before it, it or the thread of its call can go on. -/
theorem Inv.exists_step (h : Inv mem₀ done ph s) (htodo : s.todo = op :: ops) (hop : op.after ph = some ph') :
    ∃ a, a.surplus = 0 ∧ (s.step a).isSome := by
  by_cases hwork : (s.step (.work op.thread)).isSome
  · exact ⟨.work op.thread, rfl, hwork⟩
  refine ⟨.call, rfl, ?_⟩
  have hgood := h.good op.thread
  have hplace := h.place op ops htodo
  rw [stage_self htodo] at hgood
  have hrests : s.pc ≠ .locked → (s.ctx op.thread).Rests s.pc := by
    intro hpc
    refine hgood.rests hpc ?_
    by_contra hmoves
    exact hwork (h.work_isSome (fun hm => hpc (hgood.client_holds.1 hm)) (by tauto))
  show s.callStep.isSome
  unfold callStep
  rw [htodo]
  cases op with
  | new i =>
    have hrests : s.pc ≠ .locked → (s.ctx i).Rests s.pc := hrests
    cases hpc : s.pc <;> simp_all [places]
    exact hrests.waited rfl
  | push i task =>
    have hfree : s.pc ≠ .locked → (s.ctx i).mutex = none := fun hpc => (hrests hpc).mutex
    cases hpc : s.pc <;> simp_all [places, lockStep]
  | wait i =>
    have hrests : s.pc ≠ .locked → (s.ctx i).Rests s.pc := hrests
    cases hpc : s.pc <;> simp_all [places, lockStep]
    · exact hrests.mutex
    · split <;> rfl
    · exact hrests.not_asleep rfl
    · exact hrests.mutex
  | free i =>
    have hrests : s.pc ≠ .locked → (s.ctx i).Rests s.pc := hrests
    cases hpc : s.pc <;> simp_all [places, lockStep]
    · exact hrests.mutex
    · exact hrests.ended rfl

theorem sum_rank_le (prog : List (Op n γ)) : (prog.map Op.rank).sum ≤ 10 * prog.length := by
  induction prog with
  | nil => rfl
  | cons op ops ih =>
    have hop := op.rank_le
    simp only [List.map_cons, List.sum_cons, List.length_cons]
    omega

theorem rank_initial_le (mem₀ : ℕ → γ) (prog : List (Op n γ)) : (initial mem₀ prog).rank ≤ 10 * prog.length := by
  have hthreads : (initial mem₀ prog).rankThreads = 0 := Finset.sum_eq_zero fun _ _ => rfl
  rw [rank, hthreads, Nat.zero_add]
  exact (rankTodo_entry prog).trans_le (sum_rank_le prog)

theorem sum_surplus (acts : List (Act n)) :
    (acts.map Act.surplus).sum = 8 * acts.countP Act.spurious + acts.count .poll := by
  induction acts with
  | nil => rfl
  | cons a acts ih =>
    rw [List.map_cons, List.sum_cons, ih, List.countP_cons, List.count_cons]
    cases a <;> simp only [Act.surplus, Act.spurious, beq_iff_eq, reduceCtorEq, if_true, if_false,
      Bool.false_eq_true] <;> omega

/-- **The pool comes to an end, but for polls**: whatever order the threads and the client go in, a run takes at most
ten steps for each call, eight for each time that somebody wakes without a signal, and one for each poll that comes too
early; and as long as a call is left, the client or a thread can take a step of another kind. -/
theorem runs_end {prog : List (Op n γ)} (hfits : Op.Fits prog) {acts : List (Act n)}
    (h : Steps.run step (initial mem₀ prog) acts = some s) :
    acts.length ≤ 10 * prog.length + 8 * acts.countP Act.spurious + acts.count .poll ∧
      (s.todo ≠ [] → ∃ a, a.spurious = false ∧ a ≠ .poll ∧ (s.step a).isSome) := by
  refine ⟨?_, fun hne => ?_⟩
  · have hrank := Steps.length_add_rank_le rank Act.surplus (fun _ _ _ => rank_step) h
    have hinitial := rank_initial_le mem₀ prog
    rw [sum_surplus] at hrank
    omega
  · obtain ⟨done, ph, hprog, hinv⟩ := Reachable.inv ⟨acts, h⟩ hfits
    obtain ⟨op, ops, htodo⟩ := List.exists_cons_of_ne_nil hne
    obtain ⟨ph', hop⟩ := Op.after_of_fits (htodo ▸ hprog ▸ hfits) hinv.phases
    obtain ⟨a, ha, hstep⟩ := hinv.exists_step htodo hop
    refine ⟨a, ?_, ?_, hstep⟩
    · cases a <;> simp_all [Act.surplus, Act.spurious]
    · rintro rfl
      cases ha

theorem runs_end_sample : ∃ s : Pool 2 ℕ, Steps.run step (initial (fun _ => 3) sampleProgram) sampleActs = some s ∧
    sampleActs.length ≤ 10 * sampleProgram.length + 8 * sampleActs.countP Act.spurious + sampleActs.count .poll ∧
      (s.todo ≠ [] → ∃ a, a.spurious = false ∧ a ≠ .poll ∧ (s.step a).isSome) := by
  have hrun : (Steps.run step (initial (fun _ => 3) sampleProgram) sampleActs).isSome := by decide
  obtain ⟨s, hs⟩ := Option.isSome_iff_exists.1 hrun
  exact ⟨s, hs, runs_end (by decide) hs⟩

end Pool

end DeepinAnything.ThreadPool
