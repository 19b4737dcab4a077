import ScanDaemon.Concurrency.JobQueue
import ScanDaemon.Scan.MultiScanner

/-! # The scan manager

The registry with its contexts, the scan pool and the flag `dispatch_failed`.
Each definition is one critical section or one atomic operation of a function
of `Manager`; the functions themselves are sequences of these steps, taken by
the threads of the daemon.

A `ScanContext` is shared by the registry entry and the jobs of one scan. A
scan that is refused with a full queue leaves no job behind, so at most one
context per scan is in use and contexts are kept by scan id.
-/

namespace ScanDaemon

structure ScanContext where
  canceled : Bool
  unfinishedJobs : ℤ

/-- The context that `std::make_shared<ScanContext>()` makes. -/
def ScanContext.new : ScanContext := ⟨false, 0⟩

structure ScanTask where
  rootPath : Path
  startTime : ℕ

structure Manager (cfg : Config) where
  scanPool : ThreadPool .lifo cfg.scanQueueMaxSize ScanData
  dispatchFailed : Bool
  registry : ScanMap ScanTask
  context : ScanId → ScanContext
  /-- `Metrics::scan_jobs_unfinished` -/
  scanJobsUnfinished : ℤ

namespace Manager

variable {cfg : Config}

/-- The manager after a successful `start`. -/
def new (cfg : Config) : Manager cfg where
  scanPool := ⟨.new ⟨some 0, some 0, some 0⟩, cfg.scanPoolNumThreads⟩
  dispatchFailed := false
  registry := ∅
  context _ := .new
  scanJobsUnfinished := 0

variable (mg : Manager cfg)

@[simps!] def setContext (id : ScanId) (c : ScanContext) : Manager cfg :=
  { mg with context := Function.update mg.context id c }

/-- A new registry entry with a fresh context. -/
@[simps! registry context scanPool dispatchFailed] def emplace (id : ScanId) (rootPath : Path)
    (now : ℕ) : Manager cfg :=
  { mg.setContext id .new with registry := mg.registry.insert id ⟨rootPath, now⟩ }

/-- `registry.emplace` of `start_new_scan` -/
def register (id : ScanId) (rootPath : Path) (now : ℕ) : Option (Manager cfg) :=
  if (mg.registry.lookup id).isSome then none else some (mg.emplace id rootPath now)

/-- `registry.erase` -/
@[simps] def unregister (id : ScanId) : Manager cfg :=
  { mg with registry := mg.registry.erase id }

/-- `unfinished_jobs.fetch_add(1)` and its gauge -/
@[simps!] def addUnfinished (id : ScanId) : Manager cfg :=
  { mg.setContext id
      { mg.context id with unfinishedJobs := (mg.context id).unfinishedJobs + 1 } with
    scanJobsUnfinished := mg.scanJobsUnfinished + 1 }

/-- `unfinished_jobs.fetch_sub(1)` -/
@[simps!] def subUnfinished (id : ScanId) : Manager cfg :=
  mg.setContext id { mg.context id with unfinishedJobs := (mg.context id).unfinishedJobs - 1 }

/-- `scan_jobs_unfinished.fetch_sub(1)` -/
@[simps!] def subGauge : Manager cfg := { mg with scanJobsUnfinished := mg.scanJobsUnfinished - 1 }

/-- The slots kept for root jobs. -/
def reserved (cfg : Config) : ℕ :=
  if 1 < cfg.maxConcurrentScan then cfg.maxConcurrentScan - 1 else 0

/-- The test of `task_on_job_submit` that leaves the reserved slots to root jobs. -/
def enough : Bool :=
  let usedSlots := mg.scanPool.jobQueue.jobsInQueue
  let freeSlots := if usedSlots < cfg.scanQueueMaxSize then cfg.scanQueueMaxSize - usedSlots else 0
  decide (reserved cfg < freeSlots)

/-- The manager with another state of its job queue. -/
@[simps] def withQueue (queue : JobQueue .lifo cfg.scanQueueMaxSize ScanData) : Manager cfg :=
  { mg with scanPool.jobQueue := queue }

/-- `scan_pool.submit` -/
def submit (data : ScanData) : SubmitResult × Manager cfg :=
  ((mg.scanPool.jobQueue.tryPush data).1, mg.withQueue (mg.scanPool.jobQueue.tryPush data).2)

/-- `cancel_scan`; a scan that is not registered is left alone. -/
def cancelScan (id : ScanId) : Manager cfg :=
  match mg.registry.lookup id with
  | none => mg
  | some _ => mg.setContext id { mg.context id with canceled := true }

/-- The row that `task_on_job_finish` fills in from a registry entry. -/
@[simps] def row (id : ScanId) (task : ScanTask) (finishTime : ℕ) : ScanTaskRow :=
  ⟨id, task.startTime, finishTime, task.rootPath,
    if (mg.context id).canceled then .canceled else .done⟩

/-- The critical section of `task_on_job_finish`: the row of the scan, which leaves the registry. -/
def takeTask (id : ScanId) (finishTime : ℕ) : Option (ScanTaskRow × Manager cfg) :=
  (mg.registry.lookup id).map fun task => (mg.row id task finishTime, mg.unregister id)

/-- The predicate of `wait_to_finish`. -/
def isFinished (id : ScanId) : Bool :=
  (mg.registry.lookup id).isNone || decide ((mg.context id).unfinishedJobs = 0)

section Lemmas

variable {mg} {id k : ScanId} {c : ScanContext} {data : ScanData} {result : SubmitResult}
  {mg' : Manager cfg}

@[simp] theorem context_setContext_apply :
    (mg.setContext k c).context id = if id = k then c else mg.context id := by
  simp [Function.update_apply]

theorem cancelScan_registered (h : (mg.registry.lookup id).isSome = true) :
    mg.cancelScan id = mg.setContext id { mg.context id with canceled := true } := by
  obtain ⟨task, ht⟩ := Option.isSome_iff_exists.mp h
  simp [cancelScan, ht]

theorem cancelScan_unregistered (h : (mg.registry.lookup id).isSome = false) :
    mg.cancelScan id = mg := by
  simp [cancelScan, Option.isSome_eq_false_iff.mp h |> Option.isNone_iff_eq_none.mp]

@[simp] theorem scanPool_cancelScan : (mg.cancelScan id).scanPool = mg.scanPool := by
  unfold cancelScan; split <;> rfl

@[simp] theorem registry_cancelScan : (mg.cancelScan id).registry = mg.registry := by
  unfold cancelScan; split <;> rfl

@[simp] theorem dispatchFailed_cancelScan :
    (mg.cancelScan id).dispatchFailed = mg.dispatchFailed := by
  unfold cancelScan; split <;> rfl

theorem submit_pushed (h : mg.submit data = (.pushed, mg')) :
    mg.scanPool.jobQueue.stopFlag = false ∧
      mg.scanPool.jobQueue.container.length < cfg.scanQueueMaxSize ∧
      mg' = mg.withQueue (mg.scanPool.jobQueue.pushBack data) := by
  obtain ⟨h₁, rfl⟩ := Prod.mk.inj h
  obtain ⟨hs, hl, hq⟩ := JobQueue.tryPush_pushed (Prod.ext h₁ rfl)
  exact ⟨hs, hl, congrArg mg.withQueue hq⟩

theorem submit_full (h : mg.submit data = (.full, mg')) :
    mg.scanPool.jobQueue.stopFlag = false ∧
      cfg.scanQueueMaxSize ≤ mg.scanPool.jobQueue.container.length ∧
      mg' = mg.withQueue mg.scanPool.jobQueue.countFailed := by
  obtain ⟨h₁, rfl⟩ := Prod.mk.inj h
  obtain ⟨hs, hl, hq⟩ := JobQueue.tryPush_full (Prod.ext h₁ rfl)
  exact ⟨hs, hl, congrArg mg.withQueue hq⟩

theorem submit_shutdown (h : mg.submit data = (.shutdown, mg')) :
    mg.scanPool.jobQueue.stopFlag = true ∧
      mg' = mg.withQueue mg.scanPool.jobQueue.countFailed := by
  obtain ⟨h₁, rfl⟩ := Prod.mk.inj h
  obtain ⟨hs, hq⟩ := JobQueue.tryPush_shutdown (Prod.ext h₁ rfl)
  exact ⟨hs, congrArg mg.withQueue hq⟩

end Lemmas

end Manager

end ScanDaemon
