import ScanDaemon.Runtime.Threads

/-! # What a step can do

The relation `Step` says what executing a frame can do, one constructor for
every branch of the source that changes the memory or the stack, with the
guards of the branch. `step_of_exec` inverts `exec` once; every invariant is
proved by cases on `Step`.
-/

namespace ScanDaemon

open Interleave

variable {cfg : Config} {tree : ScanId → FsNode} {σ σ' : Shared cfg} {x : Input}
  {fs : List Frame}

namespace Shared

/-! ## Updates of one component -/

/-- Replace the state of the scheduler. -/
@[simps] def withScheduler (σ : Shared cfg) (sc : Scheduler) : Shared cfg :=
  { σ with scheduler := sc }

/-- Replace the state of the manager. -/
@[simps] def withManager (σ : Shared cfg) (mg : Manager cfg) : Shared cfg :=
  { σ with manager := mg }

/-- Replace the state of the export manager. -/
@[simps] def withExport (σ : Shared cfg) (em : ExportManager cfg) : Shared cfg :=
  { σ with exportManager := em }

/-- Replace the history. -/
@[simps] def withHistory (σ : Shared cfg) (h : History) : Shared cfg := { σ with history := h }

end Shared

open Shared

inductive HttpStep (σ : Shared cfg) : HttpPc → Shared cfg → List Frame → Prop where

  | take_submit (rootPath : Path) :
      HttpStep σ .worker σ [.http (.submit rootPath), .http .worker]

  | take_cancel (id : ScanId) : HttpStep σ .worker σ [.http (.cancel id), .http .worker]

  | invalid : HttpStep σ (.submit []) σ []

  | draw {rootPath : Path} : rootPath ≠ [] →
      HttpStep σ (.submit rootPath) (σ.withScheduler σ.scheduler.genScanId.2)
        [.http (.locked σ.scheduler.nextScanId rootPath)]

  | refuse {id : ScanId} {rootPath : Path} : HttpStep σ (.locked id rootPath) σ []

  | accept {id : ScanId} {rootPath : Path} : σ.scheduler.stopFlag = false →
      σ.scheduler.checkNonOverlapPath rootPath = true → σ.scheduler.state id = none →
      HttpStep σ (.locked id rootPath)
        ((σ.withScheduler (σ.scheduler.enqueue id rootPath)).withHistory
          { σ.history with submitted := (id, rootPath) :: σ.history.submitted }) []

  | cancel_ignored {id : ScanId} : σ.scheduler.state id ≠ some .pending →
      σ.scheduler.state id ≠ some .running → σ.scheduler.state id ≠ some .dispatching →
      HttpStep σ (.cancel id) σ []

  | cancel_running {id : ScanId} :
      σ.scheduler.state id = some .running ∨ σ.scheduler.state id = some .dispatching →
      HttpStep σ (.cancel id) (σ.withScheduler (σ.scheduler.setState id .canceled))
        [.cancelScan id]

  | cancel_pending {id : ScanId} : σ.scheduler.state id = some .pending →
      HttpStep σ (.cancel id) (σ.withScheduler (σ.scheduler.drop id)) []

inductive FinishStep (σ : Shared cfg) (x : Input) (id : ScanId) :
    FinishPc → Shared cfg → List Frame → Prop where

  | drain : (σ.manager.context id).unfinishedJobs = 1 →
      FinishStep σ x id .decrement ((σ.withManager (σ.manager.subUnfinished id)).withHistory
        { σ.history with drained := id :: σ.history.drained }) [.finish id (.notifyFinished x.now)]

  | decrement : (σ.manager.context id).unfinishedJobs ≠ 1 →
      FinishStep σ x id .decrement (σ.withManager (σ.manager.subUnfinished id))
        [.finish id .exchange]

  | notify_finished {t : ℕ} :
      FinishStep σ x id (.notifyFinished t)
        ((σ.withScheduler (σ.scheduler.notifyScanFinished id)).withHistory
          { σ.history with finished := id :: σ.history.finished }) [.finish id (.readCanceled t)]

  | read_canceled {t : ℕ} :
      FinishStep σ x id (.readCanceled t) σ
        [.finish id (.takeTask t (σ.manager.context id).canceled)]

  | task_missing {t : ℕ} {c : Bool} : σ.manager.registry.lookup id = none →
      FinishStep σ x id (.takeTask t c) σ [.finish id .exchange]

  | task_zero {t : ℕ} {c : Bool} : id = 0 →
      FinishStep σ x id (.takeTask t c) (σ.withManager (σ.manager.unregister id))
        [.finish id .exchange]

  | take_task {t : ℕ} {c : Bool} {task : ScanTask} : id ≠ 0 →
      σ.manager.registry.lookup id = some task →
      FinishStep σ x id (.takeTask t c) (σ.withManager (σ.manager.unregister id))
        [.finish id (.pushSentinel
          { scanId := id, modtime := 0, size := 0, err := .ok, path := task.rootPath,
            nodeType := .unknown, endSignal := ⟨true, c⟩ } (σ.manager.row id task t))]

  | push_dropped {fake : FileEvent} {row : ScanTaskRow} :
      σ.exportManager.resultQueue.stopFlag = true →
      FinishStep σ x id (.pushSentinel fake row) σ [.finish id (.insertRow row)]

  | push_sentinel {fake : FileEvent} {row : ScanTaskRow} :
      σ.exportManager.resultQueue.stopFlag = false →
      FinishStep σ x id (.pushSentinel fake row)
        (σ.withExport (σ.exportManager.pushBack fake)) [.finish id (.insertRow row)]

  | insert_row {row : ScanTaskRow} :
      FinishStep σ x id (.insertRow row)
        ((σ.withExport (σ.exportManager.insertScanTask row)).withHistory
          { σ.history with stored := row :: σ.history.stored }) [.finish id .exchange]

  | exchange_set : σ.manager.dispatchFailed = true →
      FinishStep σ x id .exchange (σ.withManager { σ.manager with dispatchFailed := false })
        [.finish id .notifyDispatch]

  | exchange_clear : σ.manager.dispatchFailed = false →
      FinishStep σ x id .exchange σ [.finish id .gauge]

  | notify_dispatch :
      FinishStep σ x id .notifyDispatch (σ.withScheduler σ.scheduler.notifyDispatchAvailable)
        [.finish id .gauge]

  | gauge : FinishStep σ x id .gauge (σ.withManager σ.manager.subGauge) []

inductive RunStep (tree : ScanId → FsNode) (σ : Shared cfg) (x : Input) :
    RunPc → Shared cfg → List Frame → Prop where

  | stop : σ.scheduler.stopFlag = true → RunStep tree σ x .head σ []

  | skip_dropped {data : PendingRoot} {rest : List PendingRoot} :
      σ.scheduler.stopFlag = false → σ.scheduler.pendingQueue = data :: rest →
      σ.scheduler.state data.scanId = none ∨ σ.scheduler.state data.scanId = some .dropped →
      RunStep tree σ x .head (σ.withScheduler (σ.scheduler.popFront data.scanId)) [.run .head]

  | skip {data : PendingRoot} {rest : List PendingRoot} {st : RequestState} :
      σ.scheduler.stopFlag = false → σ.scheduler.pendingQueue = data :: rest →
      σ.scheduler.state data.scanId = some st → st ≠ .pending → st ≠ .dropped →
      RunStep tree σ x .head (σ.withScheduler (σ.scheduler.removePending data.scanId))
        [.run .head]

  | dispatch {data : PendingRoot} {rest : List PendingRoot} :
      σ.scheduler.stopFlag = false → σ.scheduler.managerQueueFull = false →
      σ.scheduler.runningScans < Scheduler.maxConcurrentScan cfg →
      σ.scheduler.pendingQueue = data :: rest →
      σ.scheduler.state data.scanId = some .pending →
      RunStep tree σ x .head (σ.withScheduler (σ.scheduler.setState data.scanId .dispatching))
        [.run (.start data)]

  | throw {data : PendingRoot} : x.throws = true →
      RunStep tree σ x (.start data) σ [.run (.commit data false false)]

  | registered {data : PendingRoot} :
      (σ.manager.registry.lookup data.scanId).isSome = true →
      RunStep tree σ x (.start data) σ [.run (.commit data false false)]

  | register {data : PendingRoot} : σ.manager.registry.lookup data.scanId = none →
      RunStep tree σ x (.start data)
        (σ.withManager (σ.manager.emplace data.scanId data.root x.now)) [.run (.submit data)]

  | submit {data : PendingRoot} :
      RunStep tree σ x (.submit data) (σ.withManager (σ.manager.addUnfinished data.scanId))
        [.run (.push data)]

  | accept {data : PendingRoot} : σ.manager.scanPool.jobQueue.stopFlag = false →
      σ.manager.scanPool.jobQueue.container.length < cfg.scanQueueMaxSize →
      RunStep tree σ x (.push data)
        ((σ.withManager (σ.manager.withQueue
            (σ.manager.scanPool.jobQueue.pushBack (rootJob tree data)))).withHistory
          { σ.history with accepted := data.scanId :: σ.history.accepted })
        [.run (.commit data true false)]

  | refuse_full {data : PendingRoot} : σ.manager.scanPool.jobQueue.stopFlag = false →
      cfg.scanQueueMaxSize ≤ σ.manager.scanPool.jobQueue.container.length →
      RunStep tree σ x (.push data)
        (σ.withManager (σ.manager.withQueue σ.manager.scanPool.jobQueue.countFailed))
        [.run (.full data)]

  | refuse_shutdown {data : PendingRoot} : σ.manager.scanPool.jobQueue.stopFlag = true →
      RunStep tree σ x (.push data)
        ((σ.withManager (σ.manager.withQueue σ.manager.scanPool.jobQueue.countFailed)).withHistory
          { σ.history with rejected := data.scanId :: σ.history.rejected })
        [.finish data.scanId .decrement, .run (.commit data false false)]

  | full {data : PendingRoot} :
      RunStep tree σ x (.full data)
        (σ.withManager (σ.manager.subUnfinished data.scanId).subGauge) [.run (.storeFailed data)]

  | store_failed {data : PendingRoot} :
      RunStep tree σ x (.storeFailed data)
        (σ.withManager { σ.manager with dispatchFailed := true }) [.run (.erase data)]

  | erase {data : PendingRoot} :
      RunStep tree σ x (.erase data) (σ.withManager (σ.manager.unregister data.scanId))
        [.run (.commit data false true)]

  | commit_canceled {data : PendingRoot} {queueFull : Bool} :
      σ.scheduler.state data.scanId = some .canceled →
      RunStep tree σ x (.commit data true queueFull)
        (σ.withScheduler (σ.scheduler.removePending data.scanId).addRunning)
        [.cancelScan data.scanId, .run .head]

  | commit_canceled_refused {data : PendingRoot} {queueFull : Bool} :
      σ.scheduler.state data.scanId = some .canceled →
      RunStep tree σ x (.commit data false queueFull)
        (σ.withScheduler (σ.scheduler.removePending data.scanId)) [.run .head]

  | commit_running {data : PendingRoot} {queueFull : Bool} :
      σ.scheduler.state data.scanId = some .dispatching →
      RunStep tree σ x (.commit data true queueFull)
        (σ.withScheduler
          ((σ.scheduler.addRunning.setState data.scanId .running).removePending data.scanId))
        [.run .head]

  | commit_pending {data : PendingRoot} :
      σ.scheduler.state data.scanId = some .dispatching →
      RunStep tree σ x (.commit data false true)
        (σ.withScheduler (σ.scheduler.requeue data.scanId)) [.run .head]

  | commit_failed {data : PendingRoot} :
      σ.scheduler.state data.scanId = some .dispatching →
      RunStep tree σ x (.commit data false false)
        (σ.withScheduler ((σ.scheduler.removePending data.scanId).setState data.scanId .failed))
        [.run .head]

  | commit_other {data : PendingRoot} {managerAccept queueFull : Bool} :
      σ.scheduler.state data.scanId ≠ some .canceled →
      σ.scheduler.state data.scanId ≠ some .dispatching →
      RunStep tree σ x (.commit data managerAccept queueFull) σ [.run .head]

inductive WorkerStep (σ : Shared cfg) : Shared cfg → List Frame → Prop where

  | exit : σ.manager.scanPool.jobQueue.container = [] →
      σ.manager.scanPool.jobQueue.stopFlag = true →
      WorkerStep σ (σ.withManager { σ.manager with
        scanPool := ⟨σ.manager.scanPool.jobQueue.shutdown, σ.manager.scanPool.live - 1⟩ }) []

  | take {data : ScanData} {rest : List ScanData} :
      σ.manager.scanPool.jobQueue.container = rest ++ [data] →
      WorkerStep σ (σ.withManager (σ.manager.withQueue
        (σ.manager.scanPool.jobQueue.removed rest))) [.workerJob data .entry, .workForever]

inductive JobStep (σ : Shared cfg) (data : ScanData) :
    JobPc → Shared cfg → List Frame → Prop where

  | canceled : (σ.manager.context data.scanId).canceled = true →
      JobStep σ data .entry σ [.finish data.scanId .decrement]

  | enter : (σ.manager.context data.scanId).canceled = false →
      JobStep σ data .entry σ [.workerJob data .scan]

  | scan_dropped : σ.exportManager.resultQueue.stopFlag = true →
      JobStep σ data .scan σ [.workerJob data (.loop data.children.reverse)]

  | scan : σ.exportManager.resultQueue.stopFlag = false →
      JobStep σ data .scan (σ.withExport (σ.exportManager.pushBack data.event))
        [.workerJob data (.loop data.children.reverse)]

  | loop_end : JobStep σ data (.loop []) σ [.finish data.scanId .decrement]

  | loop_break {child : ScanData} {rest : List ScanData} :
      (σ.manager.context child.scanId).canceled = true →
      JobStep σ data (.loop (child :: rest)) σ [.finish data.scanId .decrement]

  | loop_next {child : ScanData} {rest : List ScanData} :
      (σ.manager.context child.scanId).canceled = false →
      JobStep σ data (.loop (child :: rest)) σ [.workerJob data (.submit child rest)]

  | submit {child : ScanData} {rest : List ScanData} :
      JobStep σ data (.submit child rest) (σ.withManager (σ.manager.addUnfinished child.scanId))
        [.workerJob data (.slots child rest)]

  | slots_free {child : ScanData} {rest : List ScanData} : σ.manager.enough = true →
      JobStep σ data (.slots child rest) σ [.workerJob data (.push child rest)]

  | slots_taken {child : ScanData} {rest : List ScanData} : σ.manager.enough = false →
      JobStep σ data (.slots child rest) σ
        [.workerJob child .entry, .workerJob data (.loop rest)]

  | pushed {child : ScanData} {rest : List ScanData} :
      σ.manager.scanPool.jobQueue.stopFlag = false →
      σ.manager.scanPool.jobQueue.container.length < cfg.scanQueueMaxSize →
      JobStep σ data (.push child rest)
        (σ.withManager (σ.manager.withQueue (σ.manager.scanPool.jobQueue.pushBack child)))
        [.workerJob data (.loop rest)]

  | full {child : ScanData} {rest : List ScanData} :
      σ.manager.scanPool.jobQueue.stopFlag = false →
      cfg.scanQueueMaxSize ≤ σ.manager.scanPool.jobQueue.container.length →
      JobStep σ data (.push child rest)
        (σ.withManager (σ.manager.withQueue σ.manager.scanPool.jobQueue.countFailed))
        [.workerJob child .entry, .workerJob data (.loop rest)]

  | shutdown {child : ScanData} {rest : List ScanData} :
      σ.manager.scanPool.jobQueue.stopFlag = true →
      JobStep σ data (.push child rest)
        (σ.withManager (σ.manager.withQueue σ.manager.scanPool.jobQueue.countFailed))
        [.finish child.scanId .decrement, .workerJob data (.loop [])]

inductive ResultStep (σ : Shared cfg) : ResultPc → Shared cfg → List Frame → Prop where

  | exit : σ.exportManager.resultQueue.container = [] →
      σ.exportManager.resultQueue.stopFlag = true →
      ResultStep σ .pop (σ.withExport { σ.exportManager with resultThread := false }) []

  | event {ev : FileEvent} {rest : List FileEvent} :
      σ.exportManager.resultQueue.container = ev :: rest → ev.endSignal.isSentinel = false →
      ResultStep σ .pop (σ.withExport (σ.exportManager.receive ev rest)) [.result .pop]

  | sentinel {ev : FileEvent} {rest : List FileEvent} :
      σ.exportManager.resultQueue.container = ev :: rest → ev.endSignal.isSentinel = true →
      ResultStep σ .pop (σ.withExport (σ.exportManager.receive ev rest)) [.result (.getRow ev)]

  | row_missing {ev : FileEvent} : σ.exportManager.pendingScanRows.lookup ev.scanId = none →
      ResultStep σ (.getRow ev)
        ((σ.withExport { σ.exportManager with resultThread := false }).withHistory
          { σ.history with rowMissing := true }) []

  | get_row {ev : FileEvent} {row : ScanTaskRow} :
      σ.exportManager.pendingScanRows.lookup ev.scanId = some row →
      ResultStep σ (.getRow ev) (σ.withExport (σ.exportManager.takeRow ev.scanId))
        [.result (.insertExported ev (row.withRoot ev.path))]

  | insert_exported {ev : FileEvent} {row : ScanTaskRow} :
      ResultStep σ (.insertExported ev row)
        (σ.withExport { σ.exportManager with
          exportedMap := insert ev.scanId σ.exportManager.exportedMap })
        [.result (.notifyExport row)]

  | notify_export {row : ScanTaskRow} :
      ResultStep σ (.notifyExport row)
        ((σ.withScheduler (σ.scheduler.notifyExportDone row.submitRoot)).withHistory
          { σ.history with released := row.scanId :: σ.history.released }) [.result .pop]

inductive MainStep (σ : Shared cfg) : MainPc → Shared cfg → List Frame → Prop where

  | shutdown :
      MainStep σ .shutdown (σ.withScheduler σ.scheduler.shutdown.2)
        [.main (.cancelLoop σ.scheduler.shutdown.1 σ.scheduler.shutdown.1)]

  | cancel_end {all : List ScanId} : MainStep σ (.cancelLoop [] all) σ [.main (.waitLoop all)]

  | cancel_next {id : ScanId} {todo all : List ScanId} :
      MainStep σ (.cancelLoop (id :: todo) all) σ [.cancelScan id, .main (.cancelLoop todo all)]

  | wait_end : MainStep σ (.waitLoop []) σ [.main .stopPool]

  | wait_next {id : ScanId} {todo : List ScanId} : σ.manager.isFinished id = true →
      MainStep σ (.waitLoop (id :: todo)) σ [.main (.waitLoop todo)]

  | stop_pool :
      MainStep σ .stopPool
        (σ.withManager (σ.manager.withQueue σ.manager.scanPool.jobQueue.shutdown))
        [.main .joinPool]

  | join_pool : σ.manager.scanPool.live = 0 → MainStep σ .joinPool σ [.main .stopExport]

  | stop_export :
      MainStep σ .stopExport (σ.withExport σ.exportManager.stop) [.main .joinExport]

  | join_export : σ.exportManager.resultThread = false → MainStep σ .joinExport σ []

/-- What executing a frame can do. -/
inductive Step (tree : ScanId → FsNode) (σ : Shared cfg) (x : Input) :
    Frame → Shared cfg → List Frame → Prop where

  | http {pc : HttpPc} {τ : Shared cfg} {gs : List Frame} :
      HttpStep σ pc τ gs → Step tree σ x (.http pc) τ gs

  | cancelScan {id : ScanId} :
      Step tree σ x (.cancelScan id) (σ.withManager (σ.manager.cancelScan id)) []

  | run {pc : RunPc} {τ : Shared cfg} {gs : List Frame} :
      RunStep tree σ x pc τ gs → Step tree σ x (.run pc) τ gs

  | workForever {τ : Shared cfg} {gs : List Frame} :
      WorkerStep σ τ gs → Step tree σ x .workForever τ gs

  | workerJob {data : ScanData} {pc : JobPc} {τ : Shared cfg} {gs : List Frame} :
      JobStep σ data pc τ gs → Step tree σ x (.workerJob data pc) τ gs

  | finish {id : ScanId} {pc : FinishPc} {τ : Shared cfg} {gs : List Frame} :
      FinishStep σ x id pc τ gs → Step tree σ x (.finish id pc) τ gs

  | result {pc : ResultPc} {τ : Shared cfg} {gs : List Frame} :
      ResultStep σ pc τ gs → Step tree σ x (.result pc) τ gs

  | main {pc : MainPc} {τ : Shared cfg} {gs : List Frame} :
      MainStep σ pc τ gs → Step tree σ x (.main pc) τ gs

/-! ## Inversion of `exec` -/

theorem HttpStep.of_exec {pc : HttpPc} (h : execHttp σ x pc = some (σ', fs)) :
    HttpStep σ pc σ' fs := by
  cases pc with
  | worker =>
    simp only [execHttp] at h
    split at h
    · cases h
    · cases h; exact .take_submit _
    · cases h; exact .take_cancel _
  | submit rootPath =>
    simp only [execHttp] at h
    split_ifs at h with he
    · cases h
      rw [List.isEmpty_iff.mp he]
      exact .invalid
    · cases h; exact .draw fun hn => he (List.isEmpty_iff.mpr hn)
  | locked id rootPath =>
    simp only [execHttp, Scheduler.submitScanRoot] at h
    split_ifs at h with hs hq ho hi
    all_goals try (cases h; exact .refuse)
    cases h
    exact .accept (by simpa using hs) (by simpa using ho) (by simpa using hi)
  | cancel id =>
    simp only [execHttp, Scheduler.cancel] at h
    cases hst : σ.scheduler.state id with
    | none =>
      simp only [hst] at h
      cases h; exact .cancel_ignored (by simp [hst]) (by simp [hst]) (by simp [hst])
    | some st =>
      cases st <;> simp only [hst] at h
      case running => cases h; exact .cancel_running (.inl hst)
      case dispatching => cases h; exact .cancel_running (.inr hst)
      case pending => cases h; exact .cancel_pending hst
      all_goals cases h; exact .cancel_ignored (by simp [hst]) (by simp [hst]) (by simp [hst])

theorem FinishStep.of_exec {id : ScanId} {pc : FinishPc}
    (h : execFinish σ x id pc = some (σ', fs)) : FinishStep σ x id pc σ' fs := by
  cases pc with
  | decrement =>
    simp only [execFinish] at h
    split_ifs at h with hu <;> cases h
    · exact .drain hu
    · exact .decrement hu
  | notifyFinished t => cases h; exact .notify_finished
  | readCanceled t => cases h; exact .read_canceled
  | takeTask t c =>
    simp only [execFinish, Manager.takeTask] at h
    cases ht : σ.manager.registry.lookup id with
    | none => simp only [ht] at h; cases h; exact .task_missing ht
    | some task =>
      simp only [ht, Option.map_some, Manager.row_scanId] at h
      split_ifs at h with hz <;> cases h
      · exact .task_zero hz
      · exact .take_task hz ht
  | pushSentinel fake row =>
    obtain ⟨em, he, h⟩ := Option.map_eq_some_iff.mp h
    cases h
    rcases ExportManager.pushResultQueue_eq_some he with ⟨hs, rfl⟩ | ⟨hs, -, rfl⟩
    · exact .push_dropped hs
    · exact .push_sentinel hs
  | insertRow row => cases h; exact .insert_row
  | exchange =>
    simp only [execFinish] at h
    split_ifs at h with hd <;> cases h
    · exact .exchange_set hd
    · exact .exchange_clear (by simpa using hd)
  | notifyDispatch => cases h; exact .notify_dispatch
  | gauge => cases h; exact .gauge

theorem RunStep.of_exec {pc : RunPc} (h : execRun tree σ x pc = some (σ', fs)) :
    RunStep tree σ x pc σ' fs := by
  cases pc with
  | head =>
    cases hs : σ.scheduler.stopFlag with
    | true => simp only [execRun, Scheduler.runHead, hs] at h; cases h; exact .stop hs
    | false =>
      cases hi : σ.scheduler.idle cfg with
      | true => simp [execRun, Scheduler.runHead, hs, hi] at h
      | false =>
        cases hq : σ.scheduler.pendingQueue with
        | nil => simp [execRun, Scheduler.runHead, hs, hi, hq] at h
        | cons data rest =>
          simp only [execRun, Scheduler.runHead, hs, hi, hq, Bool.false_eq_true, if_false] at h
          simp only [Scheduler.idle, Bool.or_eq_false_iff, decide_eq_false_iff_not, not_le] at hi
          cases hst : σ.scheduler.state data.scanId with
          | none => simp only [hst] at h; cases h; exact .skip_dropped hs hq (.inl hst)
          | some st =>
            cases st <;> simp only [hst] at h
            case pending => cases h; exact .dispatch hs hi.1.2 hi.2 hq hst
            case dropped => cases h; exact .skip_dropped hs hq (.inr hst)
            all_goals cases h; exact .skip hs hq hst (by simp) (by simp)
  | start data =>
    simp only [execRun, Manager.register] at h
    split_ifs at h with ht hr
    · cases h; exact .throw ht
    · cases h; exact .registered hr
    · cases h; exact .register (by simpa using hr)
  | submit data => cases h; exact .submit
  | push data =>
    simp only [execRun] at h
    split at h
    next mg hm =>
      obtain ⟨hs, hl, rfl⟩ := Manager.submit_pushed hm
      cases h; exact .accept hs hl
    next mg hm =>
      obtain ⟨hs, hl, rfl⟩ := Manager.submit_full hm
      cases h; exact .refuse_full hs hl
    next mg hm =>
      obtain ⟨hs, rfl⟩ := Manager.submit_shutdown hm
      cases h; exact .refuse_shutdown hs
  | full data => cases h; exact .full
  | storeFailed data => cases h; exact .store_failed
  | erase data => cases h; exact .erase
  | commit data managerAccept queueFull =>
    simp only [execRun, Scheduler.runCommit] at h
    cases hst : σ.scheduler.state data.scanId with
    | none => simp only [hst] at h; cases h; exact .commit_other (by simp [hst]) (by simp [hst])
    | some st =>
      cases st <;> simp only [hst] at h
      case canceled =>
        cases managerAccept <;> cases h
        · exact .commit_canceled_refused hst
        · exact .commit_canceled hst
      case dispatching =>
        cases managerAccept
        · cases queueFull <;> cases h
          · exact .commit_failed hst
          · exact .commit_pending hst
        · cases h; exact .commit_running hst
      all_goals cases h; exact .commit_other (by simp [hst]) (by simp [hst])

theorem WorkerStep.of_exec (h : execWorker σ = some (σ', fs)) : WorkerStep σ σ' fs := by
  unfold execWorker at h
  split at h
  · cases h
  next hp =>
    obtain ⟨hc, hs⟩ := JobQueue.pop_closed hp
    cases h; exact .exit hc hs
  next data queue hp =>
    obtain ⟨rest, hc, rfl⟩ := JobQueue.pop_lifo hp
    cases h; exact .take hc

theorem JobStep.of_exec {data : ScanData} {pc : JobPc}
    (h : execJob σ data pc = some (σ', fs)) : JobStep σ data pc σ' fs := by
  cases pc with
  | entry =>
    simp only [execJob] at h
    split_ifs at h with hc <;> cases h
    · exact .canceled hc
    · exact .enter (by simpa using hc)
  | scan =>
    obtain ⟨em, he, h⟩ := Option.map_eq_some_iff.mp h
    cases h
    rcases ExportManager.pushResultQueue_eq_some he with ⟨hs, rfl⟩ | ⟨hs, -, rfl⟩
    · exact .scan_dropped hs
    · exact .scan hs
  | loop rest =>
    cases rest with
    | nil => cases h; exact .loop_end
    | cons child rest =>
      simp only [execJob] at h
      split_ifs at h with hc <;> cases h
      · exact .loop_break hc
      · exact .loop_next (by simpa using hc)
  | submit child rest => cases h; exact .submit
  | slots child rest =>
    simp only [execJob] at h
    split_ifs at h with he <;> cases h
    · exact .slots_free he
    · exact .slots_taken (by simpa using he)
  | push child rest =>
    simp only [execJob] at h
    split at h
    next mg hm =>
      obtain ⟨hs, hl, rfl⟩ := Manager.submit_pushed hm
      cases h; exact .pushed hs hl
    next mg hm =>
      obtain ⟨hs, hl, rfl⟩ := Manager.submit_full hm
      cases h; exact .full hs hl
    next mg hm =>
      obtain ⟨hs, rfl⟩ := Manager.submit_shutdown hm
      cases h; exact .shutdown hs

theorem ResultStep.of_exec {pc : ResultPc} (h : execResult σ pc = some (σ', fs)) :
    ResultStep σ pc σ' fs := by
  cases pc with
  | pop =>
    simp only [execResult] at h
    split at h
    · cases h
    next hp =>
      obtain ⟨hc, hs⟩ := JobQueue.pop_closed hp
      cases h; exact .exit hc hs
    next ev queue hp =>
      obtain ⟨rest, hc, rfl⟩ := JobQueue.pop_fifo hp
      split_ifs at h with he <;> cases h
      · exact .sentinel hc he
      · exact .event hc (by simpa using he)
  | getRow ev =>
    simp only [execResult, ExportManager.getScanTask] at h
    cases hr : σ.exportManager.pendingScanRows.lookup ev.scanId with
    | none => simp only [hr] at h; cases h; exact .row_missing hr
    | some row => simp only [hr] at h; cases h; exact .get_row hr
  | insertExported ev row => cases h; exact .insert_exported
  | notifyExport row => cases h; exact .notify_export

theorem MainStep.of_exec {pc : MainPc} (h : execMain σ pc = some (σ', fs)) :
    MainStep σ pc σ' fs := by
  cases pc with
  | shutdown => cases h; exact .shutdown
  | cancelLoop todo all =>
    cases todo with
    | nil => cases h; exact .cancel_end
    | cons id todo => cases h; exact .cancel_next
  | waitLoop todo =>
    cases todo with
    | nil => cases h; exact .wait_end
    | cons id todo =>
      simp only [execMain] at h
      split_ifs at h with hf
      cases h; exact .wait_next hf
  | stopPool => cases h; exact .stop_pool
  | joinPool =>
    simp only [execMain] at h
    split_ifs at h with hl
    cases h; exact .join_pool hl
  | stopExport => cases h; exact .stop_export
  | joinExport =>
    simp only [execMain] at h
    split_ifs at h with hr
    cases h; exact .join_export (by simpa using hr)

theorem step_of_exec {f : Frame} (h : exec tree σ x f = some (σ', fs)) :
    Step tree σ x f σ' fs := by
  cases f with
  | http pc => exact .http (.of_exec h)
  | cancelScan id => cases h; exact .cancelScan
  | run pc => exact .run (.of_exec h)
  | workForever => exact .workForever (.of_exec h)
  | workerJob data pc => exact .workerJob (.of_exec h)
  | finish id pc => exact .finish (.of_exec h)
  | result pc => exact .result (.of_exec h)
  | main pc => exact .main (.of_exec h)

end ScanDaemon
