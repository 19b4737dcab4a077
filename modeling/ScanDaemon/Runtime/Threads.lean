import ScanDaemon.Library.Machine
import ScanDaemon.Daemon.Scheduler
import ScanDaemon.Export.ExportManager
import ScanDaemon.Scan.Manager
import Mathlib.Tactic.DeriveFintype

/-! # The threads of the daemon

The daemon is a machine of threads with call stacks: the HTTP workers, the
thread of `Scheduler::run`, the scan workers, the result thread and the main
thread, which shuts the daemon down. A frame is a program point of a function
of the source; executing it is one critical section or one atomic operation,
with the local computation up to the next one. A thread that has to wait at a
queue has no step until it can go on; `Traversal.QueueWaits` gives the queues
their condition variables.
-/

namespace ScanDaemon

open Interleave

/-- What an HTTP worker is asked to do. A root is the answer of `realpath`, empty on failure. -/
inductive Request
  | submit (rootPath : Path)
  | cancel (id : ScanId)

/-- What the outside world supplies to a step. -/
structure Input where
  request : Option Request
  /-- the answer of `std::time` -/
  now : ℕ
  /-- whether an allocation of the step fails -/
  throws : Bool

/-- `task_on_job_finish`, named by the operation that comes next. -/
inductive FinishPc
  | decrement
  | notifyFinished (finishTime : ℕ)
  | readCanceled (finishTime : ℕ)
  | takeTask (finishTime : ℕ) (isCanceled : Bool)
  | pushSentinel (fake : FileEvent) (row : ScanTaskRow)
  | insertRow (row : ScanTaskRow)
  | exchange
  | notifyDispatch
  | gauge

/-- The loop of `Scheduler::run`, with the body of `start_new_scan` from `start` to `erase`. -/
inductive RunPc
  | head
  | start (data : PendingRoot)
  | submit (data : PendingRoot)
  | push (data : PendingRoot)
  | full (data : PendingRoot)
  | storeFailed (data : PendingRoot)
  | erase (data : PendingRoot)
  | commit (data : PendingRoot) (managerAccept queueFull : Bool)

/-- `worker_job`, with the body of `task_on_job_submit` for a child from `submit` to `push`. -/
inductive JobPc
  | entry
  | scan
  | loop (rest : List ScanData)
  | submit (child : ScanData) (rest : List ScanData)
  | slots (child : ScanData) (rest : List ScanData)
  | push (child : ScanData) (rest : List ScanData)

inductive HttpPc
  | worker
  | submit (rootPath : Path)
  | locked (id : ScanId) (rootPath : Path)
  | cancel (id : ScanId)

/-- `write_result_to_db`, with the steps of `finalize_scan` outside the database. -/
inductive ResultPc
  | pop
  | getRow (ev : FileEvent)
  | insertExported (ev : FileEvent) (row : ScanTaskRow)
  | notifyExport (row : ScanTaskRow)

/-- `Scheduler::shutdown` with `Manager::shutdown`, called by the main thread. -/
inductive MainPc
  | shutdown
  | cancelLoop (todo all : List ScanId)
  | waitLoop (todo : List ScanId)
  | stopPool
  | joinPool
  | stopExport
  | joinExport

inductive Frame
  | http (pc : HttpPc)
  | cancelScan (id : ScanId)
  | run (pc : RunPc)
  | workForever
  | workerJob (data : ScanData) (pc : JobPc)
  | finish (id : ScanId) (pc : FinishPc)
  | result (pc : ResultPc)
  | main (pc : MainPc)

inductive Thread (cfg : Config)
  | http (i : Fin cfg.fdPoolNumThreads)
  | run
  | worker (i : Fin cfg.scanPoolNumThreads)
  | result
  | main
  deriving DecidableEq, Fintype

/-- History variables: what has happened so far, newest first. No step reads them. -/
structure History where
  /-- the roots admitted by `submit_scan_root` -/
  submitted : List (ScanId × Path)
  /-- the scans whose root job `start_new_scan` has queued -/
  accepted : List ScanId
  /-- the scans whose root job was refused with `Shutdown` -/
  rejected : List ScanId
  /-- the scans whose counter `task_on_job_finish` has taken to 0 -/
  drained : List ScanId
  /-- the calls of `notify_scan_finished` -/
  finished : List ScanId
  /-- the rows given to `insert_scan_task` -/
  stored : List ScanTaskRow
  /-- the scans whose root `finalize_scan` has released -/
  released : List ScanId
  /-- whether `get_scan_task` has thrown and ended the result thread -/
  rowMissing : Bool

structure Shared (cfg : Config) where
  scheduler : Scheduler
  manager : Manager cfg
  exportManager : ExportManager cfg
  history : History

section Exec

variable {cfg : Config} (tree : ScanId → FsNode) (σ : Shared cfg) (x : Input)

/-- The root job of a scan; `tree` says what the file system holds under its root. -/
def rootJob (data : PendingRoot) : ScanData := ⟨data.scanId, data.root, tree data.scanId⟩

def execHttp : HttpPc → Option (Shared cfg × List Frame)
  | .worker => match x.request with
    | none => none
    | some (.submit rootPath) => some (σ, [.http (.submit rootPath), .http .worker])
    | some (.cancel id) => some (σ, [.http (.cancel id), .http .worker])
  | .submit rootPath =>
    if rootPath.isEmpty then some (σ, [])
    else
      let (newId, sc) := σ.scheduler.genScanId
      some ({ σ with scheduler := sc }, [.http (.locked newId rootPath)])
  | .locked newId rootPath => match σ.scheduler.submitScanRoot cfg newId rootPath with
    | (.ok, sc) => some ({ σ with
        scheduler := sc
        history.submitted := (newId, rootPath) :: σ.history.submitted }, [])
    | (_, sc) => some ({ σ with scheduler := sc }, [])
  | .cancel id => match σ.scheduler.cancel id with
    | (_, runningRemoved, sc) =>
      some ({ σ with scheduler := sc }, if runningRemoved then [.cancelScan id] else [])

/-- `Manager::task_on_job_finish` -/
def execFinish (id : ScanId) : FinishPc → Option (Shared cfg × List Frame)
  | .decrement =>
    if (σ.manager.context id).unfinishedJobs = 1 then
      some ({ σ with
        manager := σ.manager.subUnfinished id
        history.drained := id :: σ.history.drained }, [.finish id (.notifyFinished x.now)])
    else some ({ σ with manager := σ.manager.subUnfinished id }, [.finish id .exchange])
  | .notifyFinished finishTime =>
    some ({ σ with
      scheduler := σ.scheduler.notifyScanFinished id
      history.finished := id :: σ.history.finished }, [.finish id (.readCanceled finishTime)])
  | .readCanceled finishTime =>
    some (σ, [.finish id (.takeTask finishTime (σ.manager.context id).canceled)])
  | .takeTask finishTime isCanceled => match σ.manager.takeTask id finishTime with
    | none => some (σ, [.finish id .exchange])
    | some (row, mg) =>
      if row.scanId = 0 then some ({ σ with manager := mg }, [.finish id .exchange])
      else
        let fake : FileEvent :=
          { scanId := id, modtime := 0, size := 0, err := .ok, path := row.submitRoot,
            nodeType := .unknown, endSignal := ⟨true, isCanceled⟩ }
        some ({ σ with manager := mg }, [.finish id (.pushSentinel fake row)])
  | .pushSentinel fake row => (σ.exportManager.pushResultQueue fake).map fun em =>
      ({ σ with exportManager := em }, [.finish id (.insertRow row)])
  | .insertRow row =>
    some ({ σ with
      exportManager := σ.exportManager.insertScanTask row
      history.stored := row :: σ.history.stored }, [.finish id .exchange])
  | .exchange =>
    if σ.manager.dispatchFailed then
      some ({ σ with manager.dispatchFailed := false }, [.finish id .notifyDispatch])
    else some (σ, [.finish id .gauge])
  | .notifyDispatch =>
    some ({ σ with scheduler := σ.scheduler.notifyDispatchAvailable }, [.finish id .gauge])
  | .gauge => some ({ σ with manager := σ.manager.subGauge }, [])

def execRun : RunPc → Option (Shared cfg × List Frame)
  | .head => match σ.scheduler.runHead cfg with
    | .wait => none
    | .stop => some (σ, [])
    | .skip sc => some ({ σ with scheduler := sc }, [.run .head])
    | .dispatch data sc => some ({ σ with scheduler := sc }, [.run (.start data)])
  | .start data =>
    -- an exception before the registration is caught by `run`
    if x.throws then some (σ, [.run (.commit data false false)])
    else match σ.manager.register data.scanId data.root x.now with
      | none => some (σ, [.run (.commit data false false)])
      | some mg => some ({ σ with manager := mg }, [.run (.submit data)])
  | .submit data =>
    some ({ σ with manager := σ.manager.addUnfinished data.scanId }, [.run (.push data)])
  | .push data => match σ.manager.submit (rootJob tree data) with
    | (.pushed, mg) => some ({ σ with
        manager := mg
        history.accepted := data.scanId :: σ.history.accepted },
        [.run (.commit data true false)])
    | (.full, mg) => some ({ σ with manager := mg }, [.run (.full data)])
    | (.shutdown, mg) => some ({ σ with
        manager := mg
        history.rejected := data.scanId :: σ.history.rejected },
        [.finish data.scanId .decrement, .run (.commit data false false)])
  | .full data =>
    some ({ σ with manager := (σ.manager.subUnfinished data.scanId).subGauge },
      [.run (.storeFailed data)])
  | .storeFailed data =>
    some ({ σ with manager.dispatchFailed := true }, [.run (.erase data)])
  | .erase data =>
    some ({ σ with manager := σ.manager.unregister data.scanId },
      [.run (.commit data false true)])
  | .commit data managerAccept queueFull =>
    match σ.scheduler.runCommit data managerAccept queueFull with
    | (cancelAfter, sc) => some ({ σ with scheduler := sc },
        if cancelAfter then [.cancelScan data.scanId, .run .head] else [.run .head])

/-- `ThreadPool::work_forever` -/
def execWorker : Option (Shared cfg × List Frame) :=
  match σ.manager.scanPool.jobQueue.pop with
  | none => none
  | some none => some ({ σ with
      manager.scanPool.jobQueue := σ.manager.scanPool.jobQueue.shutdown
      manager.scanPool.live := σ.manager.scanPool.live - 1 }, [])
  | some (some (data, queue)) => some ({ σ with manager := σ.manager.withQueue queue },
      [.workerJob data .entry, .workForever])

/-- `MultiScanner::worker_job` -/
def execJob (data : ScanData) : JobPc → Option (Shared cfg × List Frame)
  | .entry =>
    if (σ.manager.context data.scanId).canceled then some (σ, [.finish data.scanId .decrement])
    else some (σ, [.workerJob data .scan])
  | .scan => (σ.exportManager.pushResultQueue data.scanOneNode.1).map fun em =>
      ({ σ with exportManager := em }, [.workerJob data (.loop data.scanOneNode.2.reverse)])
  | .loop [] => some (σ, [.finish data.scanId .decrement])
  | .loop (child :: rest) =>
    if (σ.manager.context child.scanId).canceled then
      some (σ, [.finish data.scanId .decrement])
    else some (σ, [.workerJob data (.submit child rest)])
  | .submit child rest =>
    some ({ σ with manager := σ.manager.addUnfinished child.scanId },
      [.workerJob data (.slots child rest)])
  | .slots child rest =>
    if σ.manager.enough then some (σ, [.workerJob data (.push child rest)])
    else some (σ, [.workerJob child .entry, .workerJob data (.loop rest)])
  | .push child rest => match σ.manager.submit child with
    | (.pushed, mg) => some ({ σ with manager := mg }, [.workerJob data (.loop rest)])
    | (.full, mg) => some ({ σ with manager := mg },
        [.workerJob child .entry, .workerJob data (.loop rest)])
    | (.shutdown, mg) => some ({ σ with manager := mg },
        [.finish child.scanId .decrement, .workerJob data (.loop [])])

def execResult : ResultPc → Option (Shared cfg × List Frame)
  | .pop => match σ.exportManager.resultQueue.pop with
    | none => none
    | some none => some ({ σ with exportManager.resultThread := false }, [])
    | some (some (ev, queue)) => some ({ σ with
        exportManager.resultQueue := queue
        exportManager.received := σ.exportManager.received ++ [ev] },
        [.result (if ev.endSignal.isSentinel then .getRow ev else .pop)])
  | .getRow ev => match σ.exportManager.getScanTask ev with
    -- the exception leaves `finalize_scan` and the loop
    | none => some ({ σ with
        exportManager.resultThread := false
        history.rowMissing := true }, [])
    | some (row, em) => some ({ σ with exportManager := em }, [.result (.insertExported ev row)])
  | .insertExported ev row =>
    some ({ σ with
      exportManager.exportedMap := insert ev.scanId σ.exportManager.exportedMap },
      [.result (.notifyExport row)])
  | .notifyExport row =>
    some ({ σ with
      scheduler := σ.scheduler.notifyExportDone row.submitRoot
      history.released := row.scanId :: σ.history.released }, [.result .pop])

def execMain : MainPc → Option (Shared cfg × List Frame)
  | .shutdown => match σ.scheduler.shutdown with
    | (maybeRunning, sc) =>
      some ({ σ with scheduler := sc }, [.main (.cancelLoop maybeRunning maybeRunning)])
  | .cancelLoop [] all => some (σ, [.main (.waitLoop all)])
  | .cancelLoop (id :: todo) all => some (σ, [.cancelScan id, .main (.cancelLoop todo all)])
  | .waitLoop [] => some (σ, [.main .stopPool])
  | .waitLoop (id :: todo) =>
    if σ.manager.isFinished id then some (σ, [.main (.waitLoop todo)]) else none
  | .stopPool => some ({ σ with
      manager.scanPool.jobQueue := σ.manager.scanPool.jobQueue.shutdown }, [.main .joinPool])
  | .joinPool => if σ.manager.scanPool.live = 0 then some (σ, [.main .stopExport]) else none
  | .stopExport => some ({ σ with
      exportManager.resultQueue := σ.exportManager.resultQueue.shutdown }, [.main .joinExport])
  | .joinExport => if σ.exportManager.resultThread then none else some (σ, [])

/-- Execute the top frame of a thread. -/
def exec (f : Frame) : Option (Shared cfg × List Frame) :=
  match f with
  | .http pc => execHttp σ x pc
  | .cancelScan id => some ({ σ with manager := σ.manager.cancelScan id }, [])
  | .run pc => execRun tree σ x pc
  | .workForever => execWorker σ
  | .workerJob data pc => execJob σ data pc
  | .finish id pc => execFinish σ x id pc
  | .result pc => execResult σ pc
  | .main pc => execMain σ pc

end Exec

/-- A state of the daemon. -/
abbrev DaemonState (cfg : Config) := Machine (Thread cfg) (Shared cfg) Frame

def History.new : History := ⟨[], [], [], [], [], [], [], false⟩

def Shared.new (cfg : Config) (maxScanId : ScanId) : Shared cfg :=
  ⟨.new maxScanId, .new cfg, .new cfg, .new⟩

/-- What a thread runs when `Daemon::run` has started everything. -/
def initialStack {cfg : Config} : Thread cfg → List Frame
  | .http _ => [.http .worker]
  | .run => [.run .head]
  | .worker _ => [.workForever]
  | .result => [.result .pop]
  | .main => [.main .shutdown]

/-- The daemon after a successful start on a database with the given largest scan id. -/
def daemon (cfg : Config) (tree : ScanId → FsNode) (maxScanId : ScanId) :
    System (DaemonState cfg) (Thread cfg × Input) where
  init := ⟨Shared.new cfg maxScanId, initialStack⟩
  step m a := m.step (exec tree) a.1 a.2

/-! ## Small daemons to run -/

/-- A daemon with one HTTP worker. -/
def smallConfig (maxConcurrentScan scanQueueMaxSize scanPoolNumThreads : ℕ) : Config where
  maxConcurrentScan := maxConcurrentScan
  queueMaxSize := 10
  scanQueueMaxSize := scanQueueMaxSize
  scanPoolNumThreads := scanPoolNumThreads
  queSize := 10
  fdPoolNumThreads := 1

/-- A directory with a file in it. -/
def smallTree : FsNode := .dir 0 0 [(['b'], .file 0 0)]

section Small

variable {c n k : ℕ}

/-- A number of steps of one thread, with nothing from outside. -/
def steps (count : ℕ) (t : Thread (smallConfig c n k)) :
    List (Thread (smallConfig c n k) × Input) := List.replicate count (t, ⟨none, 0, false⟩)

/-- The HTTP worker serves a request that takes the given number of steps after its arrival. -/
def serve (request : Request) (count : ℕ) : List (Thread (smallConfig c n k) × Input) :=
  (.http ⟨0, Nat.one_pos⟩, ⟨some request, 0, false⟩) :: steps count (.http ⟨0, Nat.one_pos⟩)

end Small

end ScanDaemon
