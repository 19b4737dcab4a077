import ScanDaemon.Export.ResultWriter
import ScanDaemon.Library.Traced

/-! # The result thread with a record

The loop of the result thread again, with notes beside its calls. What is noted
is left open: the ledger of the calls, or the scans whose rows are stored. The
notes do not change what the loop does.
-/

namespace ScanDaemon

open Relational TracedSession

/-- What is noted of the calls of the result thread. -/
structure Recorder (T : Type) where
  begin : T → T
  commit : T → T
  /-- before an event is upserted -/
  upsert : FileEvent → T → T
  /-- after the commit of a batch of so many events -/
  batch : ℕ → T → T
  /-- when the scan of a sentinel is finalised -/
  finalize : FileEvent → T → T
  /-- after the row of a scan has been inserted -/
  insertRow : ScanTaskRow → T → T
  /-- before its unvisited paths are marked -/
  mark : FileEvent → T → T

namespace ResultThread

/-- The statements of `mark_deleted`. -/
def marks (info : DeleteTask) : DatabaseSession Unit := do
  let _ ← Session.step fun db => db.markDeletedHistory info
  if !info.canceled then
    let _ ← Session.step fun db => db.deleteCurrent info

/-- The statements of `upsert_count`. -/
def counts (id : ScanId) : DatabaseSession Unit := do
  let found ← Session.query
  let counts := (found.bind fun db => db.getCount id).getD Database.noCounts
  let _ ← Session.step fun db => db.updateCount id counts

end ResultThread

abbrev RecordedSession (T : Type) := TracedSession Database Path T

namespace Recorder

variable {T : Type} (R : Recorder T)

/-- The statement of `ScanTable::upsert`, noted when it has succeeded. -/
def taskStatement (row : ScanTaskRow) : RecordedSession T Unit := do
  let done ← lift (Session.step fun db => db.upsertTask row)
  note (if done then R.insertRow row else id)

/-- The statements of `mark_deleted` with a note in front. -/
def markStatements (row : ScanTaskRow) (event : FileEvent) : RecordedSession T Unit := do
  note (R.mark event)
  lift (ResultThread.marks (event.deleteTask row))

/-- What is done in the transactions of `finalize_scan`. -/
def statements (row : ScanTaskRow) (event : FileEvent) : List (RecordedSession T Unit) :=
  [R.taskStatement row, R.markStatements row event,
    lift (Session.stepEach fun kept db => db.upsertDiff event.scanId kept),
    lift (ResultThread.counts event.scanId)]

def finalizeScan (row : ScanTaskRow) (event : FileEvent) : RecordedSession T Bool :=
  attempt (inTurn ((R.statements row event).map (transaction R.begin R.commit)))

def beginBatch (t : ResultThread) : RecordedSession T Unit :=
  if t.batchCount = 0 then do
    lift Session.begin
    note R.begin
  else pure ()

def commitBatch (t : ResultThread) : RecordedSession T ResultThread := do
  if t.batchCount > 0 then
    lift Session.commit
    note R.commit
    note (R.batch t.batchCount)
  return { t with batchCount := 0 }

/-- `finalize_scan`, whose `get_scan_task` throws when the row is missing. -/
def finalizeEvent (event : FileEvent) (t : ResultThread) : RecordedSession T ResultThread := do
  note (R.finalize event)
  match t.pendingScanRows.lookup event.scanId with
  | none => throw .threw
  | some row =>
    let exported ← R.finalizeScan (row.withRoot event.path) event
    return { t with
      pendingScanRows := t.pendingScanRows.erase event.scanId
      exportedMap := if exported then insert event.scanId t.exportedMap else t.exportedMap }

/-- The body of the loop. -/
def writeResult (batchSize : ℕ) (event : FileEvent) (t : ResultThread) :
    RecordedSession T ResultThread := do
  if event.endSignal.isSentinel then
    let t ← R.commitBatch t
    R.finalizeEvent event t
  else
    R.beginBatch t
    note (R.upsert event)
    lift (IndexWriter.upsert event)
    let t := { t with batchCount := t.batchCount + 1 }
    if t.batchCount ≥ batchSize then
      R.commitBatch t
    else
      return t

/-- The loop for the events popped so far. -/
def writeResults (batchSize : ℕ) : List FileEvent → ResultThread → RecordedSession T ResultThread
  | [], t => pure t
  | event :: events, t => do
    let t ← R.writeResult batchSize event t
    writeResults batchSize events t

def writeResultToDb (batchSize : ℕ) (events : List FileEvent) (t : ResultThread) :
    RecordedSession T ResultThread := do
  let t ← R.writeResults batchSize events t
  R.commitBatch t

/-! ## The notes change nothing -/

variable {R} {batchSize : ℕ} {event : FileEvent} {events : List FileEvent} {t : ResultThread}
  {row : ScanTaskRow}

theorem traces_commitBatch : Traces (R.commitBatch t) (ResultThread.commitBatch t) := by
  unfold commitBatch ResultThread.commitBatch
  split_ifs
  · apply (Traces.lift _).bind
    intro _
    apply Traces.note_bind
    exact Traces.note_bind _ (Traces.pure _)
  · exact Traces.pure _

theorem traces_beginBatch : Traces (R.beginBatch t) (ResultThread.beginBatch t) := by
  unfold beginBatch ResultThread.beginBatch
  split_ifs
  · exact (Traces.lift _).bind_note _
  · exact Traces.pure _

theorem traces_finalizeScan :
    Traces (R.finalizeScan row event) (ResultThread.finalizeScan row event) := by
  apply Traces.attempt
  apply Traces.inTurn
  refine .cons ?_ (.cons ?_ (.cons ?_ (.cons ?_ .nil)))
  · exact Traces.transaction ((Traces.lift _).bind fun _ => Traces.noted _)
  · exact Traces.transaction (Traces.note_bind _ (Traces.lift _))
  · exact Traces.transaction (Traces.lift _)
  · exact Traces.transaction (Traces.lift _)

theorem traces_writeResult :
    Traces (R.writeResult batchSize event t) (ResultThread.writeResult batchSize event t) := by
  unfold writeResult ResultThread.writeResult
  split_ifs
  · apply traces_commitBatch.bind
    intro t
    apply Traces.note_bind
    cases t.pendingScanRows.lookup event.scanId with
    | none => exact Traces.throw _
    | some row => exact traces_finalizeScan.bind fun _ => Traces.pure _
  · apply traces_beginBatch.bind
    intro _
    apply Traces.note_bind
    apply (Traces.lift _).bind
    intro _
    dsimp only
    split_ifs
    · exact traces_commitBatch
    · exact Traces.pure _

theorem writeResultToDb_cons : R.writeResultToDb batchSize (event :: events) t =
    R.writeResult batchSize event t >>= fun t => R.writeResultToDb batchSize events t := by
  rw [writeResultToDb, writeResults, bind_assoc]
  rfl

theorem traces_writeResultToDb : Traces (R.writeResultToDb batchSize events t)
    (ResultThread.writeResultToDb batchSize events t) := by
  induction events generalizing t with
  | nil => exact traces_commitBatch
  | cons event events ih =>
    rw [writeResultToDb_cons]
    exact traces_writeResult.bind fun t => ih

/-! ## Without failures -/

section Flawless

variable {d e : Database} {r : T}

theorem run_taskStatement_flawless :
    (R.taskStatement row).run (.flawless (.opened d e), r) =
      .ok () (.flawless (.opened d (e.upsertTask row)), R.insertRow row r) := rfl

theorem run_markStatements_flawless :
    (R.markStatements row event).run (.flawless (.opened d e), r) =
      .ok () (.flawless (.opened d (e.markDeleted (event.deleteTask row))), R.mark event r) := by
  have hmarks : (ResultThread.marks (event.deleteTask row)).run (.flawless (.opened d e)) =
      .ok () (.flawless (.opened d (e.markDeleted (event.deleteTask row)))) := by
    simp only [ResultThread.marks, EStateM.run_bind, Session.run_step_flawless,
      Database.markDeleted]
    cases (event.deleteTask row).canceled <;> rfl
  rw [markStatements, EStateM.run_bind, run_note]
  exact run_lift_ok hmarks

/-- The record after a finalisation. -/
def finalized (R : Recorder T) (row : ScanTaskRow) (event : FileEvent) (r : T) : T :=
  let r := R.commit (R.insertRow row (R.begin r))
  let r := R.commit (R.mark event (R.begin r))
  R.commit (R.begin (R.commit (R.begin r)))

theorem run_finalizeScan_flawless : (R.finalizeScan row event).run (.flawless (.closed d), r) =
    .ok true (.flawless (.closed (d.finalize row event)), R.finalized row event r) := by
  have hdiff : ∀ d r, (lift (Session.stepEach fun kept db => db.upsertDiff event.scanId kept) :
      RecordedSession T Unit).run (.flawless (.opened d d), r) =
        .ok () (.flawless (.opened d (d.findScanDiff event.scanId)), r) := by
    intro d r
    rw [← Database.upsertDiff_true]
    rfl
  have hcount : ∀ d r, (lift (ResultThread.counts event.scanId) : RecordedSession T Unit).run
      (.flawless (.opened d d), r) =
        .ok () (.flawless (.opened d (d.upsertCount event.scanId)), r) := fun d r => rfl
  apply run_attempt
  simp only [statements, List.map_cons, List.map_nil]
  rw [run_inTurn_cons (run_transaction_flawless run_taskStatement_flawless),
    run_inTurn_cons (run_transaction_flawless run_markStatements_flawless),
    run_inTurn_cons (run_transaction_flawless (hdiff _ _)),
    run_inTurn_cons (run_transaction_flawless (hcount _ _))]
  rfl

end Flawless

end Recorder

end ScanDaemon
