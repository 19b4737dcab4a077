import ScanDaemon.Database.IndexReader
import ScanDaemon.Database.IndexWriter
import ScanDaemon.Database.ScanTable

/-! # The result thread at the database

`write_result_to_db` stores the events in batches. A sentinel ends the batch
and finalises its scan in four transactions, whose exceptions are caught; an
exception elsewhere ends the thread.
-/

namespace ScanDaemon

open Relational

/-- What the result thread keeps besides its connection. -/
structure ResultThread where
  batchCount : ℕ
  pendingScanRows : ScanMap ScanTaskRow
  exportedMap : Finset ScanId

def FileEvent.deleteTask (event : FileEvent) (row : ScanTaskRow) : DeleteTask where
  scanId := event.scanId
  submitRoot := row.submitRoot
  canceled := event.endSignal.isCanceled

namespace Database

/-- `finalize_scan` without a failure. -/
def finalize (row : ScanTaskRow) (event : FileEvent) (db : Database) : Database :=
  (((db.upsertTask row).markDeleted (event.deleteTask row)).findScanDiff event.scanId).upsertCount
    event.scanId

/-- What an event or a sentinel does to the tables without a failure. -/
def store (rows : ScanMap ScanTaskRow) (db : Database) (event : FileEvent) : Database :=
  if event.endSignal.isSentinel then
    match rows.lookup event.scanId with
    | some row => db.finalize (row.withRoot event.path) event
    | none => db
  else db.upsert event

/-- The ids that `ExportManager::start` loads into `exported_map`. -/
def exportedIds (db : Database) : Finset ScanId := db.scanTask.keys.image uint64

variable {db : Database} {row : ScanTaskRow} {event : FileEvent}

/-- A finalisation that has gone well leaves counts in the row of its scan. -/
theorem find_finalize (hrow : row.scanId = event.scanId)
    (h : db.scanTask.find (int64 event.scanId) = none) :
    ∃ c, (db.finalize row event).scanTask.find (int64 event.scanId) =
      some (row.columns.withCounts c) := by
  have ht : (db.upsertTask row).scanTask.find (int64 event.scanId) = some row.columns := by
    rw [← hrow] at h ⊢
    exact find_upsertTask h
  rw [finalize, upsertCount, updateCount, Table.find_modify, if_pos rfl, findScanDiff,
    scanTask_markDeleted, ht]
  exact ⟨_, rfl⟩

end Database

namespace ResultThread

/-- The transactions of `finalize_scan`, in order. -/
def transactions (row : ScanTaskRow) (event : FileEvent) : List (DatabaseSession Unit) :=
  [ScanTable.upsert row, IndexWriter.markDeleted (event.deleteTask row),
    IndexReader.findScanDiff event.scanId, ScanTable.upsertCount event.scanId]

/-- `finalize_scan` after `get_scan_task`: whether the scan is entered into `exported_map`. -/
def finalizeScan (row : ScanTaskRow) (event : FileEvent) : DatabaseSession Bool :=
  Session.attempt (Session.inTurn (transactions row event))

def beginBatch (t : ResultThread) : DatabaseSession Unit :=
  if t.batchCount = 0 then Session.begin else pure ()

def commitBatch (t : ResultThread) : DatabaseSession ResultThread := do
  if t.batchCount > 0 then
    Session.commit
  return { t with batchCount := 0 }

/-- The body of the loop for one popped event; `batchSize` is `WRITE_BATCH_SIZE`. -/
def writeResult (batchSize : ℕ) (event : FileEvent) (t : ResultThread) :
    DatabaseSession ResultThread := do
  if event.endSignal.isSentinel then
    let t ← commitBatch t
    match t.pendingScanRows.lookup event.scanId with
    | none => throw .threw
    | some row =>
      let exported ← finalizeScan (row.withRoot event.path) event
      return { t with
        pendingScanRows := t.pendingScanRows.erase event.scanId
        exportedMap := if exported then insert event.scanId t.exportedMap else t.exportedMap }
  else
    beginBatch t
    IndexWriter.upsert event
    let t := { t with batchCount := t.batchCount + 1 }
    if t.batchCount ≥ batchSize then
      commitBatch t
    else
      return t

/-- `write_result_to_db` for the events it pops until the queue is shut down and empty. -/
def writeResultToDb (batchSize : ℕ) : List FileEvent → ResultThread → DatabaseSession ResultThread
  | [], t => commitBatch t
  | event :: events, t => do
    let t ← writeResult batchSize event t
    writeResultToDb batchSize events t

/-! ## Without failures -/

variable {row : ScanTaskRow} {event : FileEvent} {events : List FileEvent}
  {t : ResultThread} {d e : Database}

theorem run_finalizeScan_flawless : (finalizeScan row event).run (.flawless (.closed d)) =
    .ok true (.flawless (.closed (d.finalize row event))) := by
  have hr : (Session.inTurn (transactions row event)).run (.flawless (.closed d)) =
      .ok () (.flawless (.closed (d.finalize row event))) := by
    simp only [Session.inTurn, transactions, EStateM.run_bind, ScanTable.run_upsert_flawless,
      IndexWriter.run_markDeleted_flawless, IndexReader.run_findScanDiff_flawless,
      ScanTable.run_upsertCount_flawless]
    rfl
  rw [EStateM.run] at hr
  simp only [finalizeScan, EStateM.run, Session.attempt, hr]

/-- The connection while `n` events of the batch are written, which have changed `d` to `e`. -/
def batch (n : ℕ) (d e : Database) : Connection Database :=
  if n = 0 then .closed e else .opened d e

theorem run_commitBatch_flawless : (commitBatch t).run (.flawless (batch t.batchCount d e)) =
    .ok { t with batchCount := 0 } (.flawless (.closed e)) := by
  cases hn : t.batchCount with
  | zero =>
    simp only [commitBatch, hn]
    rfl
  | succ n =>
    simp only [commitBatch, hn]
    rfl

theorem run_beginBatch_flawless : ∃ d', (beginBatch t).run (.flawless (batch t.batchCount d e)) =
    .ok () (.flawless (.opened d' e)) := by
  unfold beginBatch batch
  split_ifs
  · exact ⟨e, rfl⟩
  · exact ⟨d, rfl⟩

theorem run_writeResult_flawless (batchSize : ℕ)
    (h : event.endSignal.isSentinel = true → (t.pendingScanRows.lookup event.scanId).isSome) :
    ∃ t' d', (writeResult batchSize event t).run (.flawless (batch t.batchCount d e)) =
      .ok t' (.flawless (batch t'.batchCount d' (e.store t.pendingScanRows event))) ∧
      t'.pendingScanRows = if event.endSignal.isSentinel then
        t.pendingScanRows.erase event.scanId else t.pendingScanRows := by
  cases hs : event.endSignal.isSentinel with
  | true =>
    obtain ⟨row, hrow⟩ := Option.isSome_iff_exists.mp (h hs)
    refine ⟨⟨0, t.pendingScanRows.erase event.scanId, insert event.scanId t.exportedMap⟩, e, ?_,
      rfl⟩
    simp only [writeResult, hs, if_true, EStateM.run_bind, run_commitBatch_flawless, hrow,
      run_finalizeScan_flawless, Database.store]
    rfl
  | false =>
    have hstore : e.store t.pendingScanRows event = e.upsert event := by simp [Database.store, hs]
    obtain ⟨d', hbegin⟩ := run_beginBatch_flawless (t := t) (d := d) (e := e)
    rw [hstore]
    simp only [writeResult, hs, Bool.false_eq_true, if_false, EStateM.run_bind, hbegin,
      IndexWriter.run_upsert_flawless]
    split_ifs
    · exact ⟨_, d', run_commitBatch_flawless, rfl⟩
    · exact ⟨_, d', rfl, rfl⟩

/-- Each sentinel finds a row of its own. -/
structure RowsReady (rows : ScanMap ScanTaskRow) (events : List FileEvent) : Prop where
  registered : ∀ ev ∈ events, ev.endSignal.isSentinel = true → (rows.lookup ev.scanId).isSome
  once : events.Pairwise fun a b => a.endSignal.isSentinel = true → b.endSignal.isSentinel = true →
    a.scanId ≠ b.scanId

theorem foldl_store_congr {rows rows' : ScanMap ScanTaskRow}
    (h : ∀ ev ∈ events, ev.endSignal.isSentinel = true →
      rows.lookup ev.scanId = rows'.lookup ev.scanId) :
    events.foldl (Database.store rows) e = events.foldl (Database.store rows') e := by
  apply List.foldl_ext
  intro d ev hev
  unfold Database.store
  split_ifs with hs
  · rw [h ev hev hs]
  · rfl

/-- When no call fails, the popped events are stored one after the other, whatever the batches. -/
theorem run_writeResultToDb_flawless (batchSize : ℕ) (h : RowsReady t.pendingScanRows events) :
    ∃ t', (writeResultToDb batchSize events t).run (.flawless (batch t.batchCount d e)) =
      .ok t' (.flawless (.closed (events.foldl (Database.store t.pendingScanRows) e))) := by
  induction events generalizing t d e with
  | nil => exact ⟨_, run_commitBatch_flawless⟩
  | cons ev events ih =>
    obtain ⟨hreg, honce⟩ := h
    rw [List.pairwise_cons] at honce
    obtain ⟨t', d', hrun, hrows⟩ := run_writeResult_flawless (t := t) (d := d) (e := e) batchSize
      (hreg ev List.mem_cons_self)
    have hlookup : ∀ x ∈ events, x.endSignal.isSentinel = true →
        t'.pendingScanRows.lookup x.scanId = t.pendingScanRows.lookup x.scanId := by
      intro x hx hxs
      rw [hrows]
      split_ifs with hs
      · rw [ScanMap.lookup_erase, if_neg (honce.1 x hx hs hxs).symm]
      · rfl
    have hready : RowsReady t'.pendingScanRows events := by
      constructor
      · intro x hx hxs
        rw [hlookup x hx hxs]
        exact hreg x (List.mem_cons_of_mem _ hx) hxs
      · exact honce.2
    obtain ⟨t'', hrun'⟩ := ih hready
    refine ⟨t'', ?_⟩
    rw [writeResultToDb, EStateM.run_bind, hrun, List.foldl_cons, ← foldl_store_congr hlookup]
    exact hrun'

end ResultThread

end ScanDaemon
