import ScanDaemon.Concurrency.JobQueue
import ScanDaemon.Library.Machine
import Mathlib.Tactic.DeriveFintype

/-! # The thread pool

The workers of a `ThreadPool`, the thread that starts it and shuts it down, and
any number of threads that submit jobs. A job is an arbitrary function: at each
step it submits a further job or returns, as the outside world has it. A worker
that has to wait on the condition variable does not move.
-/

namespace ScanDaemon

open Interleave

/-- The program points of the threads. -/
inductive PoolFrame (T : Type)
  /-- the thread object that `start` puts into `pool` at index `i` -/
  | created (i : ℕ)
  | workForever (i : ℕ)
  /-- `job_queue.shutdown()` behind the loop of `work_forever` -/
  | exit (i : ℕ)
  | jobFn (job : T)
  | client
  | start
  | idle
  | shutdown
  | join (i : ℕ)

/-- The threads of a pool with `numThreads` workers. -/
inductive PoolThread (numThreads : ℕ) (κ : Type)
  | worker (i : Fin numThreads)
  | client (k : κ)
  | owner
  deriving DecidableEq, Fintype

/-- What the outside world supplies to a step. -/
structure PoolInput (T : Type) where
  /-- the job that a client or a running job submits -/
  submit : Option T
  /-- whether the creation of a thread fails -/
  throws : Bool

structure Pool (policy : QueueType) (queueSize : ℕ) (T : Type) where
  jobQueue : JobQueue policy queueSize T
  /-- `pool.size()` -/
  size : ℕ
  /-- the number of threads that have been created -/
  started : ℕ
  /-- the threads that have left `work_forever` -/
  exited : List ℕ
  /-- the jobs whose `submit` answered `Pushed` -/
  accepted : List T
  /-- the jobs whose `submit` answered `Full` or `Shutdown` -/
  refused : List T
  /-- the jobs whose call of `job_fn` has returned -/
  executed : List T
  /-- whether `shutdown` has returned -/
  returned : Bool

namespace Pool

variable {policy : QueueType} {queueSize : ℕ} {T : Type}

def new (metrics : QueueMetrics) : Pool policy queueSize T where
  jobQueue := .new metrics
  size := 0
  started := 0
  exited := []
  accepted := []
  refused := []
  executed := []
  returned := false

variable (p : Pool policy queueSize T)

@[simps] def withQueue (queue : JobQueue policy queueSize T) : Pool policy queueSize T :=
  { p with jobQueue := queue }

/-- `ThreadPool::submit` -/
def submit (data : T) : SubmitResult × Pool policy queueSize T :=
  match p.jobQueue.tryPush data with
  | (.pushed, queue) => (.pushed, { p.withQueue queue with accepted := p.accepted ++ [data] })
  | (result, queue) => (result, { p.withQueue queue with refused := p.refused ++ [data] })

end Pool

section Exec

variable {policy : QueueType} {queueSize : ℕ} {T : Type} (numThreads : ℕ)
  (p : Pool policy queueSize T) (x : PoolInput T)

def execPool : PoolFrame T → Option (Pool policy queueSize T × List (PoolFrame T))
  | .created i => if i < p.started then some (p, [.workForever i]) else none
  | .workForever i => match p.jobQueue.pop with
    | none => none
    | some none => some (p, [.exit i])
    | some (some (job, queue)) => some (p.withQueue queue, [.jobFn job, .workForever i])
  | .exit i => some ({ p.withQueue p.jobQueue.shutdown with exited := i :: p.exited }, [])
  | .jobFn job => match x.submit with
    | some data => some ((p.submit data).2, [.jobFn job])
    | none => some ({ p with executed := p.executed ++ [job] }, [])
  | .client => match x.submit with
    | some data => some ((p.submit data).2, [.client])
    | none => none
  | .start =>
    -- an exception is caught by `start`, which shuts the pool down
    if x.throws then some (p, [.shutdown])
    else if p.started < numThreads then
      some ({ p with size := p.size + 1, started := p.started + 1 }, [.start])
    else some (p, [.idle])
  | .idle => some (p, [.shutdown])
  | .shutdown => some (p.withQueue p.jobQueue.shutdown, [.join 0])
  | .join i =>
    if i < p.size then if i ∈ p.exited then some (p, [.join (i + 1)]) else none
    else some ({ p with size := 0, returned := true }, [.idle])

end Exec

/-- A pool whose `start` is about to be called. -/
def threadPool (policy : QueueType) (queueSize : ℕ) (T : Type) (numThreads : ℕ) (κ : Type)
    [DecidableEq κ] (metrics : QueueMetrics) :
    System (Machine (PoolThread numThreads κ) (Pool policy queueSize T) (PoolFrame T))
      (PoolThread numThreads κ × PoolInput T) where
  init := ⟨.new metrics, fun
    | .worker i => [.created i]
    | .client _ => [.client]
    | .owner => [.start]⟩
  step m a := m.step (execPool numThreads) a.1 a.2

variable {policy : QueueType} {queueSize numThreads : ℕ} {T κ : Type}
  {p p' : Pool policy queueSize T} {x : PoolInput T} {f : PoolFrame T}
  {fs rest : List (PoolFrame T)}

/-! ## What a step can do -/

/-- A job is accepted, or refused and dropped. -/
inductive Submits (p : Pool policy queueSize T) (data : T) : Pool policy queueSize T → Prop where

  | pushed : p.jobQueue.stopFlag = false → p.jobQueue.container.length < queueSize →
      Submits p data { p.withQueue (p.jobQueue.pushBack data) with
        accepted := p.accepted ++ [data] }

  | refused : Submits p data { p.withQueue p.jobQueue.countFailed with
      refused := p.refused ++ [data] }

theorem submits (p : Pool policy queueSize T) (data : T) : Submits p data (p.submit data).2 := by
  unfold Pool.submit
  rcases ht : p.jobQueue.tryPush data with ⟨result, queue⟩
  cases result with
  | pushed =>
    obtain ⟨hs, hroom, rfl⟩ := JobQueue.tryPush_pushed ht
    exact .pushed hs hroom
  | full =>
    obtain ⟨-, -, rfl⟩ := JobQueue.tryPush_full ht
    exact .refused
  | shutdown =>
    obtain ⟨-, rfl⟩ := JobQueue.tryPush_shutdown ht
    exact .refused

inductive PoolStep (numThreads : ℕ) (p : Pool policy queueSize T) :
    PoolFrame T → Pool policy queueSize T → List (PoolFrame T) → Prop where

  | begin {i : ℕ} : i < p.started → PoolStep numThreads p (.created i) p [.workForever i]

  | closed {i : ℕ} : p.jobQueue.stopFlag = true → p.jobQueue.container = [] →
      PoolStep numThreads p (.workForever i) p [.exit i]

  | take {i : ℕ} {job : T} {rest : List T} :
      (p.jobQueue.container : Multiset T) = job ::ₘ rest →
      PoolStep numThreads p (.workForever i) (p.withQueue (p.jobQueue.removed rest))
        [.jobFn job, .workForever i]

  | exit {i : ℕ} : PoolStep numThreads p (.exit i)
      { p.withQueue p.jobQueue.shutdown with exited := i :: p.exited } []

  | submit_job {job data : T} {q : Pool policy queueSize T} : Submits p data q →
      PoolStep numThreads p (.jobFn job) q [.jobFn job]

  | submit_client {data : T} {q : Pool policy queueSize T} : Submits p data q →
      PoolStep numThreads p .client q [.client]

  | finish {job : T} :
      PoolStep numThreads p (.jobFn job) { p with executed := p.executed ++ [job] } []

  | start_failed : PoolStep numThreads p .start p [.shutdown]

  | start_next : p.started < numThreads → PoolStep numThreads p .start
      { p with size := p.size + 1, started := p.started + 1 } [.start]

  | start_done : PoolStep numThreads p .start p [.idle]

  | call_shutdown : PoolStep numThreads p .idle p [.shutdown]

  | shutdown : PoolStep numThreads p .shutdown (p.withQueue p.jobQueue.shutdown) [.join 0]

  | joined {i : ℕ} : i < p.size → i ∈ p.exited → PoolStep numThreads p (.join i) p [.join (i + 1)]

  | returned {i : ℕ} : p.size ≤ i → PoolStep numThreads p (.join i)
      { p with size := 0, returned := true } [.idle]

theorem PoolStep.of_exec (h : execPool numThreads p x f = some (p', fs)) :
    PoolStep numThreads p f p' fs := by
  cases f with
  | created i =>
    simp only [execPool] at h
    split_ifs at h with hi
    cases h
    exact .begin hi
  | workForever i =>
    simp only [execPool] at h
    split at h
    · cases h
    · next hp =>
      cases h
      obtain ⟨hc, hs⟩ := JobQueue.pop_closed hp
      exact .closed hs hc
    · next job queue hp =>
      cases h
      cases policy with
      | fifo =>
        obtain ⟨rest, hc, rfl⟩ := JobQueue.pop_fifo hp
        exact .take (by rw [hc, Multiset.cons_coe])
      | lifo =>
        obtain ⟨rest, hc, rfl⟩ := JobQueue.pop_lifo hp
        refine .take ?_
        rw [hc, ← Multiset.coe_add, add_comm]
        rfl
  | exit i => cases h; exact .exit
  | jobFn job =>
    simp only [execPool] at h
    split at h
    · cases h; exact .submit_job (submits _ _)
    · cases h; exact .finish
  | client =>
    simp only [execPool] at h
    split at h
    · cases h; exact .submit_client (submits _ _)
    · cases h
  | start =>
    simp only [execPool] at h
    split_ifs at h with hx hn
    · cases h; exact .start_failed
    · cases h; exact .start_next hn
    · cases h; exact .start_done
  | idle => cases h; exact .call_shutdown
  | shutdown => cases h; exact .shutdown
  | join i =>
    simp only [execPool] at h
    split_ifs at h with hi he
    · cases h; exact .joined hi he
    · cases h; exact .returned (not_lt.mp hi)

/-! ## The stacks -/

namespace Pool

/-- The queue is stopped and empty. -/
def Closed (p : Pool policy queueSize T) : Prop :=
  p.jobQueue.stopFlag = true ∧ p.jobQueue.container = []

/-- What no step undoes. -/
structure Grows (p p' : Pool policy queueSize T) : Prop where
  started : p.started ≤ p'.started
  exited : p.exited ⊆ p'.exited
  stopped : p.jobQueue.stopFlag = true → p'.jobQueue.stopFlag = true
  closed : p.Closed → p'.Closed

end Pool

theorem Submits.grows {data : T} (h : Submits p data p') : p.Grows p' := by
  cases h with
  | pushed hs =>
    refine ⟨le_rfl, List.Subset.refl _, id, fun hc => ?_⟩
    exact absurd hc.1 (by simp [hs])
  | refused => exact ⟨le_rfl, List.Subset.refl _, id, id⟩

/-- Once the queue is stopped, its container never grows. -/
theorem PoolStep.grows (hs : PoolStep numThreads p f p' fs) : p.Grows p' := by
  cases hs with
  | take hc =>
    refine ⟨le_rfl, List.Subset.refl _, id, fun hclosed => ?_⟩
    rw [hclosed.2] at hc
    cases Multiset.zero_ne_cons hc
  | exit => exact ⟨le_rfl, List.subset_cons_self _ _, fun _ => rfl, fun hc => ⟨rfl, hc.2⟩⟩
  | submit_job hs | submit_client hs => exact hs.grows
  | start_next => exact ⟨Nat.le_succ _, List.Subset.refl _, id, id⟩
  | shutdown => exact ⟨le_rfl, List.Subset.refl _, fun _ => rfl, fun hc => ⟨rfl, hc.2⟩⟩
  | _ => exact ⟨le_rfl, List.Subset.refl _, id, id⟩

/-- The stacks of a worker. -/
inductive WorkerStack (p : Pool policy queueSize T) (i : ℕ) : List (PoolFrame T) → Prop where

  | created : WorkerStack p i [.created i]

  | waiting : i < p.started → WorkerStack p i [.workForever i]

  | running (job : T) : i < p.started → WorkerStack p i [.jobFn job, .workForever i]

  | exiting : i < p.started → p.Closed → WorkerStack p i [.exit i]

  | exited : i < p.started → p.Closed → WorkerStack p i []

/-- The stacks of the thread that owns the pool. -/
inductive OwnerStack (p : Pool policy queueSize T) : List (PoolFrame T) → Prop where

  | start : p.returned = false → OwnerStack p [.start]

  | idle : OwnerStack p [.idle]

  | shutdown : OwnerStack p [.shutdown]

  | join {k : ℕ} : p.jobQueue.stopFlag = true → (∀ j < k, j ∈ p.exited) → OwnerStack p [.join k]

/-- The stacks of a thread. -/
def PoolShape (p : Pool policy queueSize T) : PoolThread numThreads κ → List (PoolFrame T) → Prop
  | .worker i => WorkerStack p i
  | .client _ => fun st => st = [.client]
  | .owner => OwnerStack p

theorem WorkerStack.mono {i : ℕ} {st : List (PoolFrame T)} (h : WorkerStack p i st)
    (hp : p.Grows p') : WorkerStack p' i st := by
  cases h with
  | created => exact .created
  | waiting hi => exact .waiting (hi.trans_le hp.started)
  | running job hi => exact .running job (hi.trans_le hp.started)
  | exiting hi hc => exact .exiting (hi.trans_le hp.started) (hp.closed hc)
  | exited hi hc => exact .exited (hi.trans_le hp.started) (hp.closed hc)

theorem WorkerStack.step {i : ℕ} (h : WorkerStack p i (f :: rest))
    (hs : PoolStep numThreads p f p' fs) : WorkerStack p' i (fs ++ rest) := by
  have hp := hs.grows
  cases h with
  | created =>
    cases hs with
    | begin hi => exact .waiting hi
  | waiting hi =>
    cases hs with
    | closed hstop hc => exact .exiting hi ⟨hstop, hc⟩
    | take => exact .running _ hi
  | running job hi =>
    cases hs with
    | submit_job => exact .running job (hi.trans_le hp.started)
    | finish => exact .waiting hi
  | exiting hi hc =>
    cases hs with
    | exit => exact .exited hi (hp.closed hc)

theorem OwnerStack.step (h : OwnerStack p (f :: rest)) (hs : PoolStep numThreads p f p' fs) :
    OwnerStack p' (fs ++ rest) := by
  cases h with
  | start hr =>
    cases hs with
    | start_failed => exact .shutdown
    | start_next => exact .start hr
    | start_done => exact .idle
  | idle => cases hs; exact .shutdown
  | shutdown =>
    cases hs
    exact .join rfl fun j hj => absurd hj (Nat.not_lt_zero j)
  | join hstop hk =>
    cases hs with
    | joined _ he =>
      refine .join hstop fun j hj => ?_
      rcases Nat.lt_succ_iff_lt_or_eq.mp hj with hj | rfl
      · exact hk j hj
      · exact he
    | returned => exact .idle

/-- Only the owner makes `shutdown` return. -/
theorem PoolStep.returned_eq (hs : PoolStep numThreads p f p' fs) (hf : ∀ k, f ≠ .join k) :
    p'.returned = p.returned := by
  cases hs with
  | submit_job hs | submit_client hs => cases hs <;> rfl
  | returned => exact absurd rfl (hf _)
  | _ => rfl

theorem PoolShape.mono {t : PoolThread numThreads κ} {st : List (PoolFrame T)}
    (h : PoolShape p t st) (hp : p.Grows p') (hr : p'.returned = p.returned) :
    PoolShape p' t st := by
  cases t with
  | worker i => exact WorkerStack.mono h hp
  | client k => exact h
  | owner =>
    cases h with
    | start hret => exact .start (hr.trans hret)
    | idle => exact .idle
    | shutdown => exact .shutdown
    | join hstop hk => exact .join (hp.stopped hstop) fun j hj => hp.exited (hk j hj)

theorem PoolShape.step {t : PoolThread numThreads κ} (h : PoolShape p t (f :: rest))
    (hs : PoolStep numThreads p f p' fs) : PoolShape p' t (fs ++ rest) := by
  cases t with
  | worker i => exact WorkerStack.step h hs
  | client k =>
    obtain ⟨rfl, rfl⟩ := List.cons.inj h
    cases hs
    rfl
  | owner => exact OwnerStack.step h hs

/-- A frame of the owner tells the thread and its stack. -/
theorem PoolShape.owner {t : PoolThread numThreads κ} (h : PoolShape p t (f :: rest))
    (hf : f = .start ∨ ∃ k, f = .join k) : t = .owner ∧ OwnerStack p (f :: rest) := by
  cases t with
  | owner => exact ⟨rfl, h⟩
  | worker i =>
    cases h <;> simp at hf
  | client k =>
    obtain ⟨rfl, -⟩ := List.cons.inj h
    simp at hf

/-! ## Every accepted job is executed once -/

/-- The job that a frame is executing. -/
@[simp] def running : PoolFrame T → Multiset T
  | .jobFn job => {job}
  | _ => 0

variable [DecidableEq κ] [Fintype κ] {metrics : QueueMetrics}
  {m m' : Machine (PoolThread numThreads κ) (Pool policy queueSize T) (PoolFrame T)}
  {a : PoolThread numThreads κ × PoolInput T}

/-- What holds in every state of the pool. -/
structure PoolSound
    (m : Machine (PoolThread numThreads κ) (Pool policy queueSize T) (PoolFrame T)) : Prop where
  shape : ∀ t, PoolShape m.shared t (m.stack t)
  exited : ∀ j ∈ m.shared.exited, ∃ i : Fin numThreads, (i : ℕ) = j ∧ m.stack (.worker i) = []
  size : m.shared.returned = false → m.shared.size = m.shared.started
  returned : m.shared.returned = true →
    m.shared.jobQueue.stopFlag = true ∧ ∀ j < m.shared.started, j ∈ m.shared.exited
  jobs : (m.shared.accepted : Multiset T) =
    m.shared.executed + m.shared.jobQueue.container + weigh running m.frames

/-- An accepted job is queued, then executed. -/
theorem PoolStep.jobs {R : Multiset (PoolFrame T)} (hs : PoolStep numThreads p f p' fs)
    (h : (p.accepted : Multiset T) =
      p.executed + p.jobQueue.container + weigh running (f ::ₘ R)) :
    (p'.accepted : Multiset T) = p'.executed + p'.jobQueue.container +
      weigh running ((fs : Multiset (PoolFrame T)) + R) := by
  have hsubmit : ∀ data, Submits p data p' → (p'.accepted : Multiset T) =
      p'.executed + p'.jobQueue.container + weigh running (f ::ₘ R) := by
    intro data hs
    cases hs with
    | pushed =>
      simp only [Pool.withQueue_jobQueue, Pool.withQueue_executed, JobQueue.container_pushBack,
        ← Multiset.coe_add, h]
      abel
    | refused => exact h
  cases hs with
  | take hc =>
    rw [hc] at h
    simp only [Pool.withQueue_jobQueue, JobQueue.container_removed, Pool.withQueue_accepted,
      Pool.withQueue_executed, h, weigh_add, weigh_coe_cons, running,
      Multiset.coe_singleton, weigh_singleton, zero_add, ← Multiset.singleton_add]
    abel
  | submit_job hs | submit_client hs => simpa using hsubmit _ hs
  | finish =>
    simp only [h, ← Multiset.coe_add, weigh_add, weigh_cons, running, Multiset.coe_nil,
      Multiset.coe_singleton, weigh_zero]
    abel
  | _ => simpa using h

/-- A thread leaves `work_forever` with its last frame. -/
theorem PoolStep.exited_cases {j : ℕ} (hs : PoolStep numThreads p f p' fs) (hj : j ∈ p'.exited) :
    j ∈ p.exited ∨ f = .exit j ∧ fs = [] := by
  cases hs with
  | exit =>
    rcases List.mem_cons.mp hj with rfl | hj
    · exact .inr ⟨rfl, rfl⟩
    · exact .inl hj
  | submit_job hs | submit_client hs => cases hs <;> exact .inl hj
  | _ => exact .inl hj

/-- Until `shutdown` returns, the thread objects are those of the threads created. -/
theorem PoolStep.size_eq (hs : PoolStep numThreads p f p' fs)
    (h : p.returned = false → p.size = p.started) :
    p'.returned = false → p'.size = p'.started := by
  cases hs with
  | start_next => exact fun hr => congrArg (· + 1) (h hr)
  | submit_job hs | submit_client hs => cases hs <;> exact h
  | returned => exact fun hr => absurd hr (by simp)
  | _ => exact h

omit [DecidableEq κ] [Fintype κ] in
/-- `shutdown` returns when it has joined all threads. -/
theorem PoolStep.joined_all {t : PoolThread numThreads κ} (hs : PoolStep numThreads p f p' fs)
    (hsh : PoolShape p t (f :: rest)) (hsize : p.returned = false → p.size = p.started)
    (h : p.returned = true →
      p.jobQueue.stopFlag = true ∧ ∀ j < p.started, j ∈ p.exited) (hr : p'.returned = true) :
    p'.jobQueue.stopFlag = true ∧ ∀ j < p'.started, j ∈ p'.exited := by
  have hp := hs.grows
  cases hs with
  | @returned k hk =>
    cases hret : p.returned with
    | true => exact h hret
    | false =>
      obtain ⟨-, hown⟩ := hsh.owner (.inr ⟨k, rfl⟩)
      cases hown with
      | join hstop hjoined =>
        refine ⟨hstop, fun j hj => hjoined j (lt_of_lt_of_le hj ?_)⟩
        exact (hsize hret).ge.trans hk
  | start_next =>
    obtain ⟨-, hown⟩ := hsh.owner (.inl rfl)
    cases hown with
    | start hret => exact absurd (hret.symm.trans hr) (by simp)
  | exit =>
    obtain ⟨-, hall⟩ := h hr
    exact ⟨rfl, fun j hj => hp.exited (hall j hj)⟩
  | shutdown =>
    obtain ⟨-, hall⟩ := h hr
    exact ⟨rfl, hall⟩
  | submit_job hs | submit_client hs => cases hs <;> exact h hr
  | _ => exact h hr

theorem PoolSound.step (h : PoolSound m)
    (hs : (threadPool policy queueSize T numThreads κ metrics).step m a = some m') :
    PoolSound m' := by
  obtain ⟨f, rest, fs, R, hf, he, hstack, hF, hF'⟩ := Machine.frames_step hs
  have hst := PoolStep.of_exec he
  have hp := hst.grows
  have hsh := h.shape a.1
  rw [hf] at hsh
  constructor
  · intro t
    rw [hstack]
    by_cases ht : t = a.1
    · subst ht
      rw [Function.update_self]
      exact hsh.step hst
    · rw [Function.update_of_ne ht]
      by_cases hj : ∃ k, f = .join k
      · have hown := (hsh.owner (.inr hj)).1
        have hmono := h.shape t
        cases t with
        | worker i => exact WorkerStack.mono hmono hp
        | client k => exact hmono
        | owner => exact absurd hown.symm ht
      · exact (h.shape t).mono hp (hst.returned_eq fun k hk => hj ⟨k, hk⟩)
  · intro j hj
    rw [hstack]
    rcases hst.exited_cases hj with hj | ⟨rfl, rfl⟩
    · obtain ⟨i, rfl, hi⟩ := h.exited j hj
      have hne : PoolThread.worker i ≠ a.1 := by
        intro he
        rw [← he, hi] at hf
        cases hf
      exact ⟨i, rfl, by rw [Function.update_of_ne hne, hi]⟩
    · cases ha : a.1 with
      | worker i =>
        rw [ha] at hsh
        cases hsh with
        | exiting hi hc => exact ⟨i, rfl, by simp⟩
      | client k =>
        rw [ha] at hsh
        cases hsh
      | owner =>
        rw [ha] at hsh
        cases hsh
  · exact hst.size_eq h.size
  · exact hst.joined_all hsh h.size h.returned
  · have hjobs := h.jobs
    rw [hF] at hjobs
    rw [hF']
    exact hst.jobs hjobs

theorem poolSound_of_reachable
    (h : (threadPool policy queueSize T numThreads κ metrics).Reachable m) : PoolSound m := by
  refine h.invariant ⟨fun t => ?_, ?_, ?_, ?_, ?_⟩ fun n a n' _ _ hs hn => hn.step hs
  · cases t with
    | worker i => exact .created
    | client k => rfl
    | owner => exact .start rfl
  · intro j hj
    cases hj
  · exact fun _ => rfl
  · intro hr
    cases hr
  · have hnone : weigh running
        (threadPool policy queueSize T numThreads κ metrics).init.frames = 0 := by
      apply weigh_eq_zero
      intro f hf
      obtain ⟨t, ht⟩ := Machine.mem_frames.mp hf
      cases t <;> simp [threadPool] at ht <;> subst ht <;> rfl
    rw [hnone]
    rfl

omit [DecidableEq κ] in
/-- A job that is being executed is on the stack of a worker that has not left. -/
theorem PoolSound.not_running (h : PoolSound m) (hr : m.shared.returned = true) {job : T} :
    .jobFn job ∉ m.frames := by
  intro hf
  obtain ⟨t, ht⟩ := Machine.mem_frames.mp hf
  have hsh := h.shape t
  cases t with
  | worker i =>
    change WorkerStack m.shared i (m.stack (.worker i)) at hsh
    have hgone : (i : ℕ) < m.shared.started → m.stack (.worker i) = [] := by
      intro hi
      obtain ⟨k, hk, hnil⟩ := h.exited i ((h.returned hr).2 i hi)
      rwa [Fin.ext hk] at hnil
    generalize m.stack (.worker i) = st at ht hsh hgone
    cases hsh with
    | running job hi => exact absurd (hgone hi) (by simp)
    | created | waiting | exiting | exited => simp at ht
  | client k =>
    change m.stack (.client k) = _ at hsh
    simp [hsh] at ht
  | owner =>
    change OwnerStack m.shared (m.stack .owner) at hsh
    generalize m.stack .owner = st at ht hsh
    cases hsh <;> simp at ht

/-- When `shutdown` has returned on a pool with a worker, the accepted jobs have been executed,
each one as often as it was accepted; where jobs are told apart, this is once for every accepted
job and never for a refused one. Whatever is submitted later is refused with `Shutdown`. -/
theorem pool_drained (h : (threadPool policy queueSize T numThreads κ metrics).Reachable m)
    (hr : m.shared.returned = true) (hn : 0 < m.shared.started) :
    (m.shared.executed : Multiset T) = m.shared.accepted ∧
      ((m.shared.accepted ++ m.shared.refused).Nodup →
        m.shared.executed.Nodup ∧ (∀ job ∈ m.shared.accepted, job ∈ m.shared.executed) ∧
          ∀ job ∈ m.shared.refused, job ∉ m.shared.executed) ∧
      ∀ data, (m.shared.submit data).1 = .shutdown := by
  have hs := poolSound_of_reachable h
  obtain ⟨hstop, hall⟩ := hs.returned hr
  have hempty : m.shared.jobQueue.container = [] := by
    obtain ⟨i, hi, hnil⟩ := hs.exited 0 (hall 0 hn)
    have hsh := hs.shape (.worker i)
    rw [hnil] at hsh
    cases hsh with
    | exited _ hc => exact hc.2
  have hidle : weigh running m.frames = 0 := by
    apply weigh_eq_zero
    intro f hf
    cases f with
    | jobFn job => exact absurd hf (hs.not_running hr)
    | _ => rfl
  have hjobs : (m.shared.executed : Multiset T) = m.shared.accepted := by
    simpa [hempty, hidle] using hs.jobs.symm
  have hperm : m.shared.executed.Perm m.shared.accepted := Multiset.coe_eq_coe.mp hjobs
  refine ⟨hjobs, fun hd => ?_, fun data => ?_⟩
  · obtain ⟨hacc, -, hdis⟩ := List.nodup_append.mp hd
    refine ⟨hperm.nodup_iff.mpr hacc, fun job hj => hperm.mem_iff.mpr hj, fun job hj he => ?_⟩
    exact hdis job (hperm.mem_iff.mp he) job hj rfl
  · simp [Pool.submit, JobQueue.tryPush, hstop]

/-- The steps of a pool with one worker and one client: a job submits another one while it runs,
and a third one comes after the queue has been stopped. -/
def lateJob : List (PoolThread 1 Unit × PoolInput ℕ) :=
  [(.owner, ⟨none, false⟩), (.owner, ⟨none, false⟩), (.client (), ⟨some 5, false⟩),
    (.worker 0, ⟨none, false⟩), (.worker 0, ⟨none, false⟩), (.worker 0, ⟨some 7, false⟩),
    (.owner, ⟨none, false⟩), (.owner, ⟨none, false⟩), (.client (), ⟨some 9, false⟩)] ++
    List.replicate 5 (.worker 0, ⟨none, false⟩) ++ List.replicate 2 (.owner, ⟨none, false⟩)

/-- The two jobs that were accepted have been executed when `shutdown` returns. -/
theorem pool_drained_late :
    let m := (threadPool .fifo 2 ℕ 1 Unit ⟨some 0, some 0, some 0⟩).run lateJob
    m.shared.accepted = [5, 7] ∧ m.shared.refused = [9] ∧
      (m.shared.executed : Multiset ℕ) = m.shared.accepted :=
  ⟨by decide, by decide,
    (pool_drained (System.reachable_run (threadPool .fifo 2 ℕ 1 Unit ⟨some 0, some 0, some 0⟩)
      lateJob) (by decide) (by decide)).1⟩

end ScanDaemon
