import ScanDaemon.Database.Tables

/-! # The table of the scans

A row is inserted without counts; `upsert_count` fills them in from the rows of
`index_current` that carry the scan's id. The largest id is what the ids of the
next process start from.
-/

namespace ScanDaemon

open Relational

/-- `static_cast<int>` -/
def int32 (n : ℤ) : ℤ := n.bmod (2 ^ 32)

theorem int32_eq_self_iff {n : ℕ} : int32 n = n ↔ n < 2 ^ 31 := by
  rw [int32]
  constructor
  · intro h
    have hlt : (n : ℤ).bmod (2 ^ 32) < (2 ^ 32 + 1) / 2 := Int.bmod_lt (by decide)
    omega
  · intro h
    rw [Int.bmod_eq_of_le_mul_two] <;> omega

/-- The columns that `ScanTable::upsert` binds; the last four are `NULL`. -/
def ScanTaskRow.columns (row : ScanTaskRow) : TaskRow where
  submitRoot := row.submitRoot
  startTime := int64 row.startTime
  finishTime := int64 row.finishTime
  endState := row.endState
  counts := none

/-- A row whose counts are filled in. -/
def TaskRow.withCounts (counts : ScanCounts) (r : TaskRow) : TaskRow :=
  { r with counts := some counts }

namespace Database

variable (db : Database)

/-- `stmt_upsert_` of `ScanTable` -/
def upsertTask (row : ScanTaskRow) : Database :=
  { db with scanTask := db.scanTask.insertRow (int64 row.scanId) row.columns }

/-- The rows of `index_current` that carry the id of a scan. -/
def ofScan (id : ScanId) (_ : Path) (r : CurrentRow) : Bool := r.scanId = int64 id

def countNodes (id : ScanId) (t : NodeType) : ℤ :=
  int32 (db.indexCurrent.count fun p r => ofScan id p r && r.nodeType = t)

/-- `SUM(msize)`, which is 0 (`NULL`) over no rows. -/
def totalSize (id : ScanId) : ℤ := db.indexCurrent.sum (ofScan id) fun r => r.msize

/-- `stmt_get_count_`, whose step fails when the sum leaves the range of an integer. -/
def getCount (id : ScanId) : Option ScanCounts :=
  if db.totalSize id = int64 (db.totalSize id) then
    some ⟨db.countNodes id .dir, db.countNodes id .file, db.countNodes id .link, db.totalSize id⟩
  else none

/-- The counts that `upsert_count` starts from. -/
def noCounts : ScanCounts := ⟨0, 0, 0, 0⟩

/-- `stmt_update_cnt_` -/
def updateCount (id : ScanId) (counts : ScanCounts) : Database :=
  { db with scanTask := db.scanTask.modify (int64 id) (TaskRow.withCounts counts) }

/-- `upsert_count` without a failure. -/
def upsertCount (id : ScanId) : Database := db.updateCount id ((db.getCount id).getD noCounts)

section Upsert

variable {db} {row : ScanTaskRow} {id : ScanId} {i : ℤ}

@[simp] theorem indexHistory_upsertTask : (db.upsertTask row).indexHistory = db.indexHistory := rfl
@[simp] theorem indexCurrent_upsertTask : (db.upsertTask row).indexCurrent = db.indexCurrent := rfl
@[simp] theorem scanDiff_upsertTask : (db.upsertTask row).scanDiff = db.scanDiff := rfl
@[simp] theorem indexHistory_upsertCount : (db.upsertCount id).indexHistory = db.indexHistory := rfl
@[simp] theorem indexCurrent_upsertCount : (db.upsertCount id).indexCurrent = db.indexCurrent := rfl
@[simp] theorem scanDiff_upsertCount : (db.upsertCount id).scanDiff = db.scanDiff := rfl

theorem find_upsertTask (h : db.scanTask.find (int64 row.scanId) = none) :
    (db.upsertTask row).scanTask.find (int64 row.scanId) = some row.columns := by
  rw [upsertTask, Table.find_insertRow, if_pos rfl, h, Option.none_or]

theorem find_upsertTask_of_ne (h : i ≠ int64 row.scanId) :
    (db.upsertTask row).scanTask.find i = db.scanTask.find i := by
  rw [upsertTask, Table.find_insertRow, if_neg h]

theorem find_upsertCount : (db.upsertCount id).scanTask.find (int64 id) =
    (db.scanTask.find (int64 id)).map (.withCounts ((db.getCount id).getD noCounts)) := by
  rw [upsertCount, updateCount, Table.find_modify, if_pos rfl]

theorem find_upsertCount_of_ne (h : i ≠ int64 id) :
    (db.upsertCount id).scanTask.find i = db.scanTask.find i := by
  rw [upsertCount, updateCount, Table.find_modify, if_neg h]

end Upsert

/-- `SELECT MAX(scan_id)`, read as 0 from an empty table. -/
def getMaxId : ScanId :=
  if h : db.scanTask.keys.Nonempty then uint64 (db.scanTask.keys.max' h) else 0

end Database

namespace ScanTable

def upsert (row : ScanTaskRow) : DatabaseSession Unit :=
  Session.transaction do
    let _ ← Session.step fun db => db.upsertTask row

def upsertCount (id : ScanId) : DatabaseSession Unit :=
  Session.transaction do
    let found ← Session.query
    let counts := (found.bind fun db => db.getCount id).getD Database.noCounts
    let _ ← Session.step fun db => db.updateCount id counts

variable {d : Database} {row : ScanTaskRow} {id : ScanId}

theorem isTransaction_upsert : Session.IsTransaction (upsert row) :=
  ⟨_, Session.quiet_step.bind fun _ => Session.Quiet.pure (), rfl⟩

theorem isTransaction_upsertCount : Session.IsTransaction (upsertCount id) :=
  ⟨_, Session.quiet_query.bind fun _ => Session.quiet_step.bind fun _ => Session.Quiet.pure (), rfl⟩

theorem run_upsert_flawless : (upsert row).run (.flawless (.closed d)) =
    .ok () (.flawless (.closed (d.upsertTask row))) := rfl

theorem run_upsertCount_flawless : (upsertCount id).run (.flawless (.closed d)) =
    .ok () (.flawless (.closed (d.upsertCount id))) := rfl

end ScanTable

end ScanDaemon
