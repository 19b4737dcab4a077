import ScanDaemon.Concurrency.Monitor
import ScanDaemon.Traversal.Completion

/-! # The waits at the queues

In the daemon a thread that has to wait at a queue tries again until it
succeeds. Here it goes to sleep on the condition variable of the queue, an
operation on a queue is followed by its notification, and `notify_one` wakes
the sleeper that the system picks. Seen from a queue, this is the monitor of
that queue; apart from the waiting the threads run as before.
-/

namespace ScanDaemon

open Interleave

variable {cfg : Config} {tree : ScanId → FsNode} {σ σ' : Shared cfg} {x : Input} {f : Frame}
  {fs : List Frame} {maxScanId : ScanId} {m : DaemonState cfg}

/-- The operation of a frame on the result queue. -/
def Frame.resultCall : Frame → Option (QueueCall FileEvent)
  | .workerJob data .scan => some (.push data.scanOneNode.1)
  | .finish _ (.pushSentinel fake _) => some (.push fake)
  | .result .pop => some .pop
  | .main .stopExport => some .shutdown
  | _ => none

/-- The operation of a frame on the queue of the scan pool. -/
def Frame.scanCall (tree : ScanId → FsNode) (σ : Shared cfg) : Frame → Option (QueueCall ScanData)
  | .run (.push data) => some (.tryPush (rootJob tree data))
  | .workerJob _ (.push child _) => some (.tryPush child)
  | .workForever => match σ.manager.scanPool.jobQueue.pop with
    -- a worker that leaves the loop shuts the queue down
    | some none => some .shutdown
    | _ => some .pop
  | .main .stopPool => some .shutdown
  | _ => none

def resultMonitor (cfg : Config) : Monitor (JobQueue .fifo cfg.queSize FileEvent)
    (QueueCall FileEvent) := queueMonitor .fifo cfg.queSize FileEvent ⟨none, none, some 0⟩

def scanMonitor (cfg : Config) : Monitor (JobQueue .lifo cfg.scanQueueMaxSize ScanData)
    (QueueCall ScanData) :=
  queueMonitor .lifo cfg.scanQueueMaxSize ScanData ⟨some 0, some 0, some 0⟩

/-- The daemon with the places of its threads at the two queues. -/
structure SleepState (cfg : Config) where
  machine : DaemonState cfg
  results : Thread cfg → Status (QueueCall FileEvent)
  scans : Thread cfg → Status (QueueCall ScanData)

inductive SleepAct (cfg : Config)
  /-- execute the top frame -/
  | run (x : Input)
  /-- go to sleep in the operation of the top frame -/
  | sleep
  /-- notify the sleeper that the system has picked, or nobody -/
  | notify (target : Option (Thread cfg))
  /-- wake up without a notification -/
  | wake

namespace SleepState

variable (tree : ScanId → FsNode) (w : SleepState cfg) (i : Thread cfg)

/-- The result queue with its threads. -/
def atResults : QueueState (Thread cfg) .fifo cfg.queSize FileEvent :=
  ⟨w.machine.shared.exportManager.resultQueue, w.results⟩

/-- The queue of the scan pool with its threads. -/
def atScans : QueueState (Thread cfg) .lifo cfg.scanQueueMaxSize ScanData :=
  ⟨w.machine.shared.manager.scanPool.jobQueue, w.scans⟩

/-- What thread `i` is about to do at the result queue. -/
def resultCall : Option (QueueCall FileEvent) := (w.machine.top i).bind Frame.resultCall

/-- What thread `i` is about to do at the queue of the scan pool. -/
def scanCall : Option (QueueCall ScanData) :=
  (w.machine.top i).bind (Frame.scanCall tree w.machine.shared)

/-- The threads at the queues when thread `i` has entered its operation. -/
def enter : SleepState cfg where
  machine := w.machine
  results := ((resultMonitor cfg).enter w.atResults i (w.resultCall i)).status
  scans := ((scanMonitor cfg).enter w.atScans i (w.scanCall tree i)).status

/-- The thread neither sleeps nor has to notify. -/
def isFree : Bool := (w.results i).isFree && (w.scans i).isFree

/-- The operation of thread `i` has to wait. -/
def isBlocked : Bool :=
  (w.resultCall i).any (fun c => (c.body w.atResults.shared).isNone) ||
    (w.scanCall tree i).any fun c => (c.body w.atScans.shared).isNone

def step (a : Thread cfg × SleepAct cfg) : Option (SleepState cfg) :=
  match a.2 with
  | .run x =>
    if w.isFree a.1 then (w.machine.step (exec tree) a.1 x).map fun m =>
      { w.enter tree a.1 with machine := m }
    else none
  | .sleep => if w.isFree a.1 && w.isBlocked tree a.1 then some (w.enter tree a.1) else none
  | .notify target =>
    (((resultMonitor cfg).step w.atResults (a.1, .notify target)).map fun s =>
      { w with results := s.status }).or
    (((scanMonitor cfg).step w.atScans (a.1, .notify target)).map fun s =>
      { w with scans := s.status })
  | .wake =>
    (((resultMonitor cfg).step w.atResults (a.1, .wake)).map fun s =>
      { w with results := s.status }).or
    (((scanMonitor cfg).step w.atScans (a.1, .wake)).map fun s => { w with scans := s.status })

end SleepState

/-- The daemon with the condition variables of its queues. -/
def sleepingDaemon (cfg : Config) (tree : ScanId → FsNode) (maxScanId : ScanId) :
    System (SleepState cfg) (Thread cfg × SleepAct cfg) where
  init := ⟨(daemon cfg tree maxScanId).init, fun _ => .outside, fun _ => .outside⟩
  step := SleepState.step tree

variable {w w' : SleepState cfg} {a : Thread cfg × SleepAct cfg} {i : Thread cfg}

/-! ## The steps -/

/-- What a thread can do. -/
inductive SleepState.Move (tree : ScanId → FsNode) (w : SleepState cfg) (i : Thread cfg) :
    SleepAct cfg → SleepState cfg → Prop where

  | run {x : Input} {m : DaemonState cfg} : w.isFree i = true →
      w.machine.step (exec tree) i x = some m →
      Move tree w i (.run x) { w.enter tree i with machine := m }

  | sleep : w.isFree i = true → w.isBlocked tree i = true → Move tree w i .sleep (w.enter tree i)

  | notify_results {target : Option (Thread cfg)}
      {s : QueueState (Thread cfg) .fifo cfg.queSize FileEvent} :
      (resultMonitor cfg).step w.atResults (i, .notify target) = some s →
      Move tree w i (.notify target) { w with results := s.status }

  | notify_scans {target : Option (Thread cfg)}
      {s : QueueState (Thread cfg) .lifo cfg.scanQueueMaxSize ScanData} :
      (scanMonitor cfg).step w.atScans (i, .notify target) = some s →
      Move tree w i (.notify target) { w with scans := s.status }

  | wake_results {s : QueueState (Thread cfg) .fifo cfg.queSize FileEvent} :
      (resultMonitor cfg).step w.atResults (i, .wake) = some s →
      Move tree w i .wake { w with results := s.status }

  | wake_scans {s : QueueState (Thread cfg) .lifo cfg.scanQueueMaxSize ScanData} :
      (scanMonitor cfg).step w.atScans (i, .wake) = some s →
      Move tree w i .wake { w with scans := s.status }

theorem SleepState.move_of_step (h : w.step tree a = some w') : w.Move tree a.1 a.2 w' := by
  obtain ⟨i, act⟩ := a
  cases act with
  | run x =>
    simp only [step] at h
    split_ifs at h with hfree
    obtain ⟨m, hm, rfl⟩ := Option.map_eq_some_iff.mp h
    exact .run hfree hm
  | sleep =>
    simp only [step] at h
    split_ifs at h with hs
    obtain ⟨hfree, hblocked⟩ := Bool.and_eq_true_iff.mp hs
    cases h
    exact .sleep hfree hblocked
  | notify target =>
    rcases Option.or_eq_some_iff.mp h with h | ⟨-, h⟩
    · obtain ⟨s, hs, rfl⟩ := Option.map_eq_some_iff.mp h
      exact .notify_results hs
    · obtain ⟨s, hs, rfl⟩ := Option.map_eq_some_iff.mp h
      exact .notify_scans hs
  | wake =>
    rcases Option.or_eq_some_iff.mp h with h | ⟨-, h⟩
    · obtain ⟨s, hs, rfl⟩ := Option.map_eq_some_iff.mp h
      exact .wake_results hs
    · obtain ⟨s, hs, rfl⟩ := Option.map_eq_some_iff.mp h
      exact .wake_scans hs

/-! ## What a frame does to the queues -/

/-- A frame without an operation on the result queue leaves it alone. -/
theorem Step.resultQueue_eq (hs : Step tree σ x f σ' fs) (hf : f.resultCall = none) :
    σ'.exportManager.resultQueue = σ.exportManager.resultQueue := by
  cases hs with
  | cancelScan => rfl
  | http hs | run hs | workForever hs | finish hs | workerJob hs | result hs | main hs =>
    cases hs <;> first | rfl | cases hf

theorem Step.jobQueue_eq (hs : Step tree σ x f σ' fs) (hf : f.scanCall tree σ = none) :
    σ'.manager.scanPool.jobQueue = σ.manager.scanPool.jobQueue := by
  cases hs with
  | cancelScan => simp [Manager.scanPool_cancelScan]
  | workForever hs =>
    simp only [Frame.scanCall] at hf
    split at hf <;> cases hf
  | http hs | run hs | finish hs | workerJob hs | result hs | main hs =>
    cases hs <;> first | rfl | cases hf

/-- The operation of a frame on the result queue is what its execution does there. -/
theorem body_of_resultCall {c : QueueCall FileEvent} (hf : f.resultCall = some c)
    (h : exec tree σ x f = some (σ', fs)) :
    ∃ n, c.body σ.exportManager.resultQueue = some (σ'.exportManager.resultQueue, n) := by
  cases f with
  | workerJob data pc =>
    cases pc with
    | scan =>
      cases hf
      obtain ⟨em, hem, h⟩ := Option.map_eq_some_iff.mp h
      obtain ⟨q, hq, rfl⟩ := Option.map_eq_some_iff.mp hem
      cases h
      exact ⟨_, by simp only [QueueCall.body, hq, Option.map_some]; rfl⟩
    | _ => cases hf
  | finish id pc =>
    cases pc with
    | pushSentinel fake row =>
      cases hf
      obtain ⟨em, hem, h⟩ := Option.map_eq_some_iff.mp h
      obtain ⟨q, hq, rfl⟩ := Option.map_eq_some_iff.mp hem
      cases h
      exact ⟨_, by simp only [QueueCall.body, hq, Option.map_some]; rfl⟩
    | _ => cases hf
  | result pc =>
    cases pc with
    | pop =>
      cases hf
      simp only [exec, execResult] at h
      split at h
      · cases h
      next hp => cases h; exact ⟨none, by simp only [QueueCall.body, hp, Option.map_some]⟩
      next hp => cases h; exact ⟨some .one, by simp only [QueueCall.body, hp, Option.map_some]⟩
    | _ => cases hf
  | main pc =>
    cases pc with
    | stopExport => cases hf; cases h; exact ⟨_, rfl⟩
    | _ => cases hf
  | _ => cases hf

theorem body_of_tryPush {q : JobQueue .lifo cfg.scanQueueMaxSize ScanData} {item : ScanData} :
    ∃ n, (QueueCall.tryPush item).body q = some ((q.tryPush item).2, n) := by
  rcases he : q.tryPush item with ⟨res, r⟩
  cases res with
  | pushed => exact ⟨some .one, by simp only [QueueCall.body, he]⟩
  | full | shutdown => exact ⟨none, by simp only [QueueCall.body, he]⟩

/-- The operation of a frame on the queue of the scan pool is what its execution does there. -/
theorem body_of_scanCall {c : QueueCall ScanData} (hf : f.scanCall tree σ = some c)
    (h : exec tree σ x f = some (σ', fs)) :
    ∃ n, c.body σ.manager.scanPool.jobQueue = some (σ'.manager.scanPool.jobQueue, n) := by
  have hpush : ∀ item, c = .tryPush item →
      σ'.manager.scanPool.jobQueue = (σ.manager.scanPool.jobQueue.tryPush item).2 →
      ∃ n, c.body σ.manager.scanPool.jobQueue = some (σ'.manager.scanPool.jobQueue, n) := by
    rintro item rfl hq
    rw [hq]
    exact body_of_tryPush
  cases f with
  | run pc =>
    cases pc with
    | push data =>
      cases hf
      refine hpush _ rfl ?_
      simp only [exec, execRun, Manager.submit] at h
      split at h <;> rename_i hm <;> obtain ⟨-, rfl⟩ := Prod.mk.inj hm <;> cases h <;> rfl
    | _ => cases hf
  | workerJob data pc =>
    cases pc with
    | push child rest =>
      cases hf
      refine hpush _ rfl ?_
      simp only [exec, execJob, Manager.submit] at h
      split at h <;> rename_i hm <;> obtain ⟨-, rfl⟩ := Prod.mk.inj hm <;> cases h <;> rfl
    | _ => cases hf
  | workForever =>
    simp only [exec, execWorker] at h
    simp only [Frame.scanCall] at hf
    split at h
    · cases h
    next hp => rw [hp] at hf; cases hf; cases h; exact ⟨_, rfl⟩
    next hp =>
      rw [hp] at hf
      cases hf
      cases h
      exact ⟨some .one, by simp only [QueueCall.body, hp, Option.map_some]; rfl⟩
  | main pc =>
    cases pc with
    | stopPool => cases hf; cases h; exact ⟨_, rfl⟩
    | _ => cases hf
  | _ => cases hf

theorem scanCall_of_resultCall (hf : f.resultCall ≠ none) : f.scanCall tree σ = none := by
  cases f with
  | workerJob data pc => cases pc <;> first | rfl | exact absurd rfl hf
  | main pc => cases pc <;> first | rfl | exact absurd rfl hf
  | finish id pc | result pc => rfl
  | http pc | cancelScan id | run pc | workForever => exact absurd rfl hf

/-- A worker or the result thread that cannot go on has to wait at a queue. -/
theorem blocked_of_exec_eq_none (hf : f.IsJob ∨ f = .workForever ∨ ∃ pc, f = .result pc)
    (h : exec tree σ x f = none) :
    (∃ c, f.resultCall = some c ∧ c.body σ.exportManager.resultQueue = none) ∨
      ∃ c, f.scanCall tree σ = some c ∧ c.body σ.manager.scanPool.jobQueue = none := by
  have hpush : ∀ ev, σ.exportManager.pushResultQueue ev = none →
      (QueueCall.push ev).body σ.exportManager.resultQueue = none := by
    intro ev hev
    rw [QueueCall.body, Option.map_eq_none_iff.mp hev]
    rfl
  cases f with
  | workerJob data pc =>
    obtain ⟨rfl, hp⟩ := execJob_eq_none h
    exact .inl ⟨_, rfl, hpush _ hp⟩
  | finish id pc =>
    obtain ⟨fake, row, rfl, hp⟩ := execFinish_eq_none h
    exact .inl ⟨_, rfl, hpush _ hp⟩
  | workForever =>
    simp only [exec, execWorker] at h
    split at h
    next hp =>
      refine .inr ⟨.pop, ?_, ?_⟩
      · simp only [Frame.scanCall, hp]
      · simp only [QueueCall.body, hp, Option.map_none]
    · cases h
    · cases h
  | result pc =>
    obtain ⟨rfl, -⟩ := execResult_eq_none h
    refine .inl ⟨_, rfl, ?_⟩
    simp only [exec, execResult] at h
    split at h
    next hp => simp only [QueueCall.body, hp, Option.map_none]
    · cases h
    · cases h
  | http pc | cancelScan id | run pc | main pc => simp [Frame.IsJob] at hf

/-! ## The daemon behind the waits -/

/-- The step neither disturbs the daemon nor wakes a thread of the wrong kind: after an addition to
the result queue the result thread is woken if it waits, and after a removal a thread that waits for
room if there is one. -/
def Heeded (w : SleepState cfg) (a : Thread cfg × SleepAct cfg) : Prop :=
  match a.2 with
  | .run x => Undisturbed w.machine (a.1, x)
  | .notify target => WakesOther w.atResults (a.1, .notify target)
  | .sleep | .wake => True

instance (w : SleepState cfg) : (a : Thread cfg × SleepAct cfg) → Decidable (Heeded w a)
  | (i, .run x) => inferInstanceAs (Decidable (Undisturbed w.machine (i, x)))
  | (i, .notify target) => inferInstanceAs (Decidable (WakesOther w.atResults (i, .notify target)))
  | (_, .sleep) | (_, .wake) => .isTrue trivial

/-- The threads and the memory run as they do in the daemon. -/
theorem undisturbed_of_heeded (h : (sleepingDaemon cfg tree maxScanId).Reach Heeded w) :
    (daemon cfg tree maxScanId).Reach Undisturbed w.machine := by
  refine h.invariant (P := fun w => (daemon cfg tree maxScanId).Reach Undisturbed w.machine) .init
    fun w a w' _ hok hs ih => ?_
  obtain ⟨i, act⟩ := a
  cases SleepState.move_of_step hs with
  | run _ hm => exact ih.step hok hm
  | _ => exact ih

/-- A thread that waits at a queue, or has been woken there, stands at its operation. -/
structure Engaged (w : SleepState cfg) : Prop where
  results : ∀ i c, (w.results i).pending = some c → w.resultCall i = some c
  scans : ∀ i c, (w.scans i).pending = some c → c = .pop ∧ w.machine.top i = some .workForever

theorem SleepState.top_step {x : Input} {j : Thread cfg}
    (hm : w.machine.step (exec tree) i x = some m) (hj : j ≠ i) :
    m.top j = w.machine.top j := by
  obtain ⟨f, rest, σ', fs, -, -, rfl⟩ := Machine.step_eq_some.mp hm
  simp [Machine.top, Function.update_of_ne hj]

theorem SleepState.exists_top {x : Input} (hm : w.machine.step (exec tree) i x = some m) :
    ∃ f fs, w.machine.top i = some f ∧ exec tree w.machine.shared x f = some (m.shared, fs) := by
  obtain ⟨f, rest, σ', fs, hf, he, rfl⟩ := Machine.step_eq_some.mp hm
  exact ⟨f, fs, Machine.top_of_stack hf, he⟩

/-- Only a worker that looks for a job has to wait at the queue of the scan pool. -/
theorem workForever_of_scanCall {c : QueueCall ScanData} (hf : f.scanCall tree σ = some c)
    (hb : c.body σ.manager.scanPool.jobQueue = none) : c = .pop ∧ f = .workForever := by
  obtain ⟨-, ⟨rfl, -⟩ | ⟨item, rfl, -⟩⟩ := QueueCall.body_none hb
  · cases f with
    | workForever => exact ⟨rfl, rfl⟩
    | run pc | workerJob data pc | main pc => cases pc <;> cases hf
    | _ => cases hf
  · cases f with
    | workForever => simp only [Frame.scanCall] at hf; split at hf <;> cases hf
    | run pc | workerJob data pc | main pc => cases pc <;> cases hf
    | _ => cases hf

theorem Engaged.step (h : Engaged w) (hs : w.step tree a = some w') : Engaged w' := by
  obtain ⟨i, act⟩ := a
  cases SleepState.move_of_step hs with
  | @run x m hfree hm =>
    obtain ⟨f, fs, hf, he⟩ := SleepState.exists_top hm
    constructor
    · intro j c hj
      rcases Monitor.pending_enter hj with ⟨hp, hor⟩ | ⟨rfl, hc, hb⟩
      · have hcall := h.results j c hp
        have hji : j ≠ i := by
          rintro rfl
          rcases hor with hor | hor
          · exact hor rfl
          · simp [hcall] at hor
        rw [← hcall]
        simp only [SleepState.resultCall, SleepState.top_step hm hji]
      · simp only [SleepState.resultCall, hf, Option.bind_some] at hc
        obtain ⟨n, hn⟩ := body_of_resultCall hc he
        exact absurd (hn.symm.trans hb) (by simp)
    · intro j c hj
      rcases Monitor.pending_enter hj with ⟨hp, hor⟩ | ⟨rfl, hc, hb⟩
      · obtain ⟨hpop, htop⟩ := h.scans j c hp
        have hji : j ≠ i := by
          rintro rfl
          rcases hor with hor | hor
          · exact hor rfl
          · simp only [SleepState.scanCall, htop, Option.bind_some, Frame.scanCall] at hor
            split at hor <;> cases hor
        exact ⟨hpop, (SleepState.top_step hm hji).trans htop⟩
      · simp only [SleepState.scanCall, hf, Option.bind_some] at hc
        obtain ⟨n, hn⟩ := body_of_scanCall hc he
        exact absurd (hn.symm.trans hb) (by simp)
  | sleep =>
    constructor
    · intro j c hj
      rcases Monitor.pending_enter hj with ⟨hp, -⟩ | ⟨rfl, hc, -⟩
      · exact h.results j c hp
      · exact hc
    · intro j c hj
      rcases Monitor.pending_enter hj with ⟨hp, -⟩ | ⟨rfl, hc, hb⟩
      · exact h.scans j c hp
      · obtain ⟨f, hf, hc⟩ := Option.bind_eq_some_iff.mp hc
        obtain ⟨rfl, rfl⟩ := workForever_of_scanCall hc hb
        exact ⟨rfl, hf⟩
  | notify_results hn =>
    exact ⟨fun j c hj => h.results j c ((Monitor.of_notify hn).2 j ▸ hj), h.scans⟩
  | notify_scans hn =>
    exact ⟨h.results, fun j c hj => h.scans j c ((Monitor.of_notify hn).2 j ▸ hj)⟩
  | wake_results hn =>
    exact ⟨fun j c hj => h.results j c ((Monitor.of_wake hn).2 j ▸ hj), h.scans⟩
  | wake_scans hn =>
    exact ⟨h.results, fun j c hj => h.scans j c ((Monitor.of_wake hn).2 j ▸ hj)⟩

theorem engaged_of_reachable {ok : SleepState cfg → Thread cfg × SleepAct cfg → Prop}
    (h : (sleepingDaemon cfg tree maxScanId).Reach ok w) : Engaged w := by
  refine h.invariant (P := Engaged) ⟨?_, ?_⟩ fun _ _ _ _ _ hs he => he.step hs
  · intro i c hc
    cases hc
  · intro i c hc
    cases hc

/-! ## The monitors of the queues -/

namespace SleepState

theorem atResults_run {x : Input} (hm : w.machine.step (exec tree) i x = some m) :
    ({ w.enter tree i with machine := m } : SleepState cfg).atResults =
      (resultMonitor cfg).enter w.atResults i (w.resultCall i) := by
  obtain ⟨f, fs, hf, he⟩ := exists_top hm
  have hq : m.shared.exportManager.resultQueue =
      ((resultMonitor cfg).enter w.atResults i (w.resultCall i)).shared := by
    cases hc : f.resultCall with
    | none =>
      simp only [resultCall, hf, Option.bind_some, hc]
      exact (step_of_exec he).resultQueue_eq hc
    | some c =>
      obtain ⟨n, hn⟩ := body_of_resultCall hc he
      have hb : (resultMonitor cfg).body c w.atResults.shared = _ := hn
      simp only [resultCall, hf, Option.bind_some, hc, Monitor.enter, hb, Option.map_some,
        Option.getD_some]
  exact congrArg (Monitor.State.mk · _) hq

theorem atScans_run {x : Input} (hm : w.machine.step (exec tree) i x = some m) :
    ({ w.enter tree i with machine := m } : SleepState cfg).atScans =
      (scanMonitor cfg).enter w.atScans i (w.scanCall tree i) := by
  obtain ⟨f, fs, hf, he⟩ := exists_top hm
  have hq : m.shared.manager.scanPool.jobQueue =
      ((scanMonitor cfg).enter w.atScans i (w.scanCall tree i)).shared := by
    cases hc : f.scanCall tree w.machine.shared with
    | none =>
      simp only [scanCall, hf, Option.bind_some, hc]
      exact (step_of_exec he).jobQueue_eq hc
    | some c =>
      obtain ⟨n, hn⟩ := body_of_scanCall hc he
      have hb : (scanMonitor cfg).body c w.atScans.shared = _ := hn
      simp only [scanCall, hf, Option.bind_some, hc, Monitor.enter, hb, Option.map_some,
        Option.getD_some]
  exact congrArg (Monitor.State.mk · _) hq

/-- A thread has an operation at one of the queues at most. -/
theorem scanCall_eq_none (hr : w.resultCall i ≠ none) : w.scanCall tree i = none := by
  cases hf : w.machine.top i with
  | none => simp [scanCall, hf]
  | some f =>
    simp only [resultCall, scanCall, hf, Option.bind_some] at hr ⊢
    exact scanCall_of_resultCall hr

/-- A blocked thread waits at one of the queues and does nothing at the other one. -/
theorem blocked_cases (hb : w.isBlocked tree i = true) :
    (w.scanCall tree i = none ∧
      ∃ c, w.resultCall i = some c ∧ (resultMonitor cfg).body c w.atResults.shared = none) ∨
    (w.resultCall i = none ∧
      ∃ c, w.scanCall tree i = some c ∧ (scanMonitor cfg).body c w.atScans.shared = none) := by
  rcases Bool.or_eq_true_iff.mp hb with hb | hb
  · obtain ⟨c, hc, hn⟩ := (Option.any_eq_true _ _).mp hb
    exact .inl ⟨scanCall_eq_none (by simp [hc]), c, hc, Option.isNone_iff_eq_none.mp hn⟩
  · obtain ⟨c, hc, hn⟩ := (Option.any_eq_true _ _).mp hb
    refine .inr ⟨?_, c, hc, Option.isNone_iff_eq_none.mp hn⟩
    by_contra hr
    simp [scanCall_eq_none hr] at hc

theorem atResults_sleep (hb : w.isBlocked tree i = true) :
    (w.enter tree i).atResults = (resultMonitor cfg).enter w.atResults i (w.resultCall i) := by
  refine congrArg (Monitor.State.mk · _) ?_
  rcases blocked_cases hb with ⟨-, c, hc, hn⟩ | ⟨hr, -⟩
  · simp only [hc, hn, Option.map_none, Option.getD_none]
    rfl
  · simp only [hr]
    rfl

theorem atScans_sleep (hb : w.isBlocked tree i = true) :
    (w.enter tree i).atScans = (scanMonitor cfg).enter w.atScans i (w.scanCall tree i) := by
  refine congrArg (Monitor.State.mk · _) ?_
  rcases blocked_cases hb with ⟨hs, -⟩ | ⟨-, c, hc, hn⟩
  · simp only [hs]
    rfl
  · simp only [hc, hn, Option.map_none, Option.getD_none]
    rfl

theorem atResults_with {s : QueueState (Thread cfg) .fifo cfg.queSize FileEvent}
    (h : s.shared = w.atResults.shared) :
    ({ w with results := s.status } : SleepState cfg).atResults = s :=
  congrArg (Monitor.State.mk · _) h.symm

theorem atScans_with {s : QueueState (Thread cfg) .lifo cfg.scanQueueMaxSize ScanData}
    (h : s.shared = w.atScans.shared) :
    ({ w with scans := s.status } : SleepState cfg).atScans = s :=
  congrArg (Monitor.State.mk · _) h.symm

theorem atScans_with_results {st : Thread cfg → Status (QueueCall FileEvent)} :
    ({ w with results := st } : SleepState cfg).atScans = w.atScans := rfl

theorem atResults_with_scans {st : Thread cfg → Status (QueueCall ScanData)} :
    ({ w with scans := st } : SleepState cfg).atResults = w.atResults := rfl

end SleepState

/-- A thread waits at one of the queues at most. -/
theorem Engaged.apart (h : Engaged w) {c : QueueCall FileEvent} {d : QueueCall ScanData}
    (hc : (w.results i).pending = some c) (hd : (w.scans i).pending = some d) : False := by
  have hcall := h.results i c hc
  simp [SleepState.resultCall, (h.scans i d hd).2, Frame.resultCall] at hcall

/-- A free thread has not begun its operation, or starts over with it. -/
theorem Engaged.at_result_call (h : Engaged w) (hfree : w.isFree i = true) :
    ∀ c ∈ w.resultCall i, w.atResults.status i = .outside ∨ w.atResults.status i = .ready c := by
  intro c hc
  have hst := (Bool.and_eq_true_iff.mp hfree).1
  change w.results i = _ ∨ w.results i = _
  cases hr : w.results i with
  | outside => exact .inl rfl
  | ready d =>
    have hd := h.results i d (by rw [hr]; rfl)
    rw [hc] at hd
    rw [Option.some.inj hd]
    exact .inr rfl
  | waiting d | notifying d n => simp [hr, Status.isFree] at hst

theorem Engaged.at_scan_call (h : Engaged w) (hfree : w.isFree i = true)
    (hpool : w.machine.shared.manager.scanPool.jobQueue.stopFlag = false) :
    ∀ c ∈ w.scanCall tree i, w.atScans.status i = .outside ∨ w.atScans.status i = .ready c := by
  intro c hc
  have hst := (Bool.and_eq_true_iff.mp hfree).2
  change w.scans i = _ ∨ w.scans i = _
  cases hr : w.scans i with
  | outside => exact .inl rfl
  | ready d =>
    obtain ⟨rfl, htop⟩ := h.scans i d (by rw [hr]; rfl)
    simp only [SleepState.scanCall, htop, Option.bind_some, Frame.scanCall] at hc
    split at hc
    next hp =>
      have hstop := (JobQueue.pop_closed hp).2
      rw [hpool] at hstop
      cases hstop
    · cases hc
      exact .inr rfl
  | waiting d | notifying d n => simp [hr, Status.isFree] at hst

/-- At the queue of the scan pool only consumers wait, and any of them may be woken. -/
theorem Engaged.wakesOther (h : Engaged w) {target : Option (Thread cfg)}
    {s : QueueState (Thread cfg) .lifo cfg.scanQueueMaxSize ScanData}
    (hs : (scanMonitor cfg).step w.atScans (i, .notify target) = some s) :
    WakesOther w.atScans (i, .notify target) := by
  have hpop : ∀ j c, w.atScans.status j = .waiting c → c = .pop := fun j c hj =>
    (h.scans j c (by rw [show w.scans j = .waiting c from hj]; rfl)).1
  have hproducer : ¬ProducerWaits w.atScans.status := fun ⟨j, item, hj⟩ => nomatch hpop j _ hj
  have htarget : ∀ j, target = some j → w.atScans.status j = .waiting .pop := by
    rintro j rfl
    cases Monitor.move_of_step hs with
    | notify_one _ hj => exact hpop j _ hj ▸ hj
  unfold WakesOther
  split
  next ht => exact fun _ => htarget _ (Monitor.Act.notify.inj ht)
  next ht => exact fun _ => htarget _ (Monitor.Act.notify.inj ht)
  next => exact fun hw => absurd hw hproducer
  next => trivial

/-- As long as the daemon is not disturbed, the queues and their threads are those of the monitors,
in runs that wake a thread of the other kind whenever one waits. -/
theorem reach_monitors (h : (sleepingDaemon cfg tree maxScanId).Reach Heeded w) :
    ((resultMonitor cfg).system (Thread cfg)).Reach WakesOther w.atResults ∧
      ((scanMonitor cfg).system (Thread cfg)).Reach WakesOther w.atScans := by
  refine h.invariant (P := fun w =>
    ((resultMonitor cfg).system (Thread cfg)).Reach WakesOther w.atResults ∧
      ((scanMonitor cfg).system (Thread cfg)).Reach WakesOther w.atScans) ⟨.init, .init⟩
    fun w a w' hr hok hs ih => ?_
  obtain ⟨i, act⟩ := a
  have heng := engaged_of_reachable hr
  have hund := undisturbed_of_heeded hr
  have hpool := (busy_of_reach hund).pool_open (sound_of_reachable hund.reachable)
  cases SleepState.move_of_step hs with
  | run hfree hm =>
    rw [SleepState.atResults_run hm, SleepState.atScans_run hm]
    exact ⟨Monitor.reach_enter ih.1 (fun _ _ => wakesOther_call) (fun _ => wakesOther_enter)
        (heng.at_result_call hfree),
      Monitor.reach_enter ih.2 (fun _ _ => wakesOther_call) (fun _ => wakesOther_enter)
        (heng.at_scan_call hfree hpool)⟩
  | sleep hfree hb =>
    rw [SleepState.atResults_sleep hb, SleepState.atScans_sleep hb]
    exact ⟨Monitor.reach_enter ih.1 (fun _ _ => wakesOther_call) (fun _ => wakesOther_enter)
        (heng.at_result_call hfree),
      Monitor.reach_enter ih.2 (fun _ _ => wakesOther_call) (fun _ => wakesOther_enter)
        (heng.at_scan_call hfree hpool)⟩
  | notify_results hn =>
    refine ⟨?_, ih.2⟩
    rw [SleepState.atResults_with (Monitor.of_notify hn).1]
    exact ih.1.step hok hn
  | notify_scans hn =>
    refine ⟨ih.1, ?_⟩
    rw [SleepState.atScans_with (Monitor.of_notify hn).1]
    exact ih.2.step (heng.wakesOther hn) hn
  | wake_results hn =>
    refine ⟨?_, ih.2⟩
    rw [SleepState.atResults_with (Monitor.of_wake hn).1]
    exact ih.1.step wakesOther_wake hn
  | wake_scans hn =>
    refine ⟨ih.1, ?_⟩
    rw [SleepState.atScans_with (Monitor.of_wake hn).1]
    exact ih.2.step wakesOther_wake hn

end ScanDaemon
