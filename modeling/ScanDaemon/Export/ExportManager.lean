import ScanDaemon.Concurrency.JobQueue
import ScanDaemon.Common.Types

/-! # The export manager

The result queue, the rows of finished scans that wait for their sentinel, and
the set of exported scans. `received` is the history of what the result thread
has popped; no operation reads it.
-/

namespace ScanDaemon

structure ExportManager (cfg : Config) where
  resultQueue : JobQueue .fifo cfg.queSize FileEvent
  pendingScanRows : ScanMap ScanTaskRow
  exportedMap : Finset ScanId
  /-- whether the result thread can still be joined -/
  resultThread : Bool
  received : List FileEvent

namespace ExportManager

variable {cfg : Config}

/-- The export manager after a successful `start`. -/
def new (cfg : Config) : ExportManager cfg where
  resultQueue := .new ⟨none, none, some 0⟩
  pendingScanRows := ∅
  exportedMap := ∅
  resultThread := true
  received := []

variable (em : ExportManager cfg)

/-- Everything ever accepted by the result queue, in order. -/
def pushed : List FileEvent := em.received ++ em.resultQueue.container

/-- The export manager after an accepted event. -/
@[simps] def pushBack (ev : FileEvent) : ExportManager cfg :=
  { em with resultQueue := em.resultQueue.pushBack ev }

/-- The export manager after the result thread has popped `ev`. -/
@[simps] def receive (ev : FileEvent) (rest : List FileEvent) : ExportManager cfg :=
  { em with resultQueue := em.resultQueue.removed rest, received := em.received ++ [ev] }

/-- The export manager with a stopped result queue. -/
@[simps] def stop : ExportManager cfg := { em with resultQueue := em.resultQueue.shutdown }

/-- `push_result_queue`; `none` while the queue is full. -/
def pushResultQueue (ev : FileEvent) : Option (ExportManager cfg) :=
  (em.resultQueue.push ev).map fun queue => { em with resultQueue := queue }

/-- `insert_scan_task` -/
@[simps] def insertScanTask (row : ScanTaskRow) : ExportManager cfg :=
  { em with pendingScanRows := em.pendingScanRows.insert row.scanId row }

/-- The export manager after the row of a scan has been taken. -/
@[simps] def takeRow (id : ScanId) : ExportManager cfg :=
  { em with pendingScanRows := em.pendingScanRows.erase id }

/-- `get_scan_task`; `none` is the exception for a missing row. -/
def getScanTask (ev : FileEvent) : Option (ScanTaskRow × ExportManager cfg) :=
  (em.pendingScanRows.lookup ev.scanId).map fun row =>
    (row.withRoot ev.path, em.takeRow ev.scanId)

/-- `check_exported` -/
def checkExported (ids : List ScanId) : List Bool :=
  ids.map fun id => decide (id ∈ em.exportedMap)

theorem pushResultQueue_eq_some {em em' : ExportManager cfg} {ev : FileEvent}
    (h : em.pushResultQueue ev = some em') :
    em.resultQueue.stopFlag = true ∧ em' = em ∨
      em.resultQueue.stopFlag = false ∧ em.resultQueue.container.length < cfg.queSize ∧
        em' = em.pushBack ev := by
  obtain ⟨q, hq, rfl⟩ := Option.map_eq_some_iff.mp h
  rcases JobQueue.push_eq_some hq with ⟨hs, rfl⟩ | ⟨hs, hl, rfl⟩
  · exact .inl ⟨hs, rfl⟩
  · exact .inr ⟨hs, hl, rfl⟩

end ExportManager

end ScanDaemon
