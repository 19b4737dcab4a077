import ScanDaemon.Database.Glob
import ScanDaemon.Database.Tables

/-! # Writing the index

`upsert` records one event, and `mark_deleted` closes a scan: the paths under
its root that it did not visit get a row in the history, and leave
`index_current` unless the scan was canceled. Each statement is a function on
the tables, and the C++ functions are sessions that run the statements.
-/

namespace ScanDaemon

open Relational

structure DeleteTask where
  scanId : ScanId
  submitRoot : Path
  canceled : Bool

namespace IndexWriter

/-- What follows the last `.` of a path. -/
def getExtension (path : Path) : List Char :=
  if '.' ∈ path then (path.reverse.takeWhile (· ≠ '.')).reverse else []

end IndexWriter

/-- The columns that `upsert` binds for an event. -/
def FileEvent.row (ev : FileEvent) : HistoryRow where
  nodeType := ev.nodeType
  mtime := int64 ev.modtime
  msize := int64 ev.size
  state := if ev.err.value = 0 then .alive else .error
  errMsg := if ev.err.value = 0 then [] else ev.err.message
  extension := IndexWriter.getExtension ev.path

namespace DeleteTask

variable (info : DeleteTask)

/-- The rows of `index_current` under the root that carry another scan's id. -/
def stale (path : Path) (r : CurrentRow) : Bool :=
  glob (info.submitRoot ++ ['/', '*']) path && r.scanId != int64 info.scanId

/-- The history row for a path that the scan did not visit. -/
def mark (r : CurrentRow) : HistoryRow :=
  { r.toHistoryRow with state := if info.canceled then .canceled else .deleted, errMsg := [] }

/-- The rows that `stmt_mark_deleted_history_` selects. -/
def marks (current : Table Path CurrentRow) : Table (Path × ℤ) HistoryRow :=
  .ofFind (fun k => if k.2 = int64 info.scanId
      then ((current.find k.1).filter (info.stale k.1)).map info.mark else none)
    (current.keys.image fun p => (p, int64 info.scanId)) fun k hk => by
      obtain ⟨p, i⟩ := k
      split_ifs at hk with hi
      · obtain ⟨r, hr⟩ := Option.isSome_iff_exists.mp hk
        obtain ⟨c, hc, -⟩ := Option.map_eq_some_iff.mp hr
        have hp : p ∈ current.keys := Table.mem_keys_of_find (Option.filter_eq_some_iff.mp hc).1
        have hi : i = int64 info.scanId := hi
        rw [hi]
        exact Finset.mem_image_of_mem (fun p => (p, int64 info.scanId)) hp
      · simp at hk

end DeleteTask

namespace Database

variable (db : Database)

/-- The `mtime` and `msize` that `stmt_compare_bf_upsert_` finds; −1 when it finds no row. -/
def fingerprint (path : Path) : ℤ × ℤ :=
  ((db.indexCurrent.find path).map fun r => (r.mtime, r.msize)).getD (-1, -1)

/-- `stmt_upsert_current_` -/
def upsertCurrent (ev : FileEvent) : Database :=
  { db with indexCurrent := db.indexCurrent.replace ev.path ⟨ev.row, int64 ev.scanId⟩ }

/-- `stmt_upsert_history_` -/
def upsertHistory (ev : FileEvent) : Database :=
  { db with indexHistory := db.indexHistory.insertRow (ev.path, int64 ev.scanId) ev.row }

/-- `upsert` without a failure: an unchanged fingerprint leaves the history alone. -/
def upsert (ev : FileEvent) : Database :=
  if (ev.row.mtime, ev.row.msize) = db.fingerprint ev.path then db.upsertCurrent ev
  else (db.upsertCurrent ev).upsertHistory ev

/-- `stmt_mark_deleted_history_` -/
def markDeletedHistory (info : DeleteTask) : Database :=
  { db with indexHistory := .insertAll (info.marks db.indexCurrent) db.indexHistory }

/-- `stmt_delete_current_` -/
def deleteCurrent (info : DeleteTask) : Database :=
  { db with indexCurrent := db.indexCurrent.delete info.stale }

/-- `mark_deleted` without a failure. -/
def markDeleted (info : DeleteTask) : Database :=
  if info.canceled then db.markDeletedHistory info
  else (db.markDeletedHistory info).deleteCurrent info

section Upsert

variable {db} {ev : FileEvent} {path : Path} {k : Path × ℤ}

@[simp] theorem scanTask_upsert : (db.upsert ev).scanTask = db.scanTask := by
  unfold upsert
  split <;> rfl

@[simp] theorem scanDiff_upsert : (db.upsert ev).scanDiff = db.scanDiff := by
  unfold upsert
  split <;> rfl

theorem indexCurrent_upsert : (db.upsert ev).indexCurrent =
    db.indexCurrent.replace ev.path ⟨ev.row, int64 ev.scanId⟩ := by
  unfold upsert
  split <;> rfl

theorem find_current_upsert : (db.upsert ev).indexCurrent.find path =
    if path = ev.path then some ⟨ev.row, int64 ev.scanId⟩ else db.indexCurrent.find path := by
  rw [indexCurrent_upsert, Table.find_replace]

theorem find_history_upsert_of_ne (h : k ≠ (ev.path, int64 ev.scanId)) :
    (db.upsert ev).indexHistory.find k = db.indexHistory.find k := by
  unfold upsert
  split
  · rfl
  · rw [upsertHistory, Table.find_insertRow, if_neg h]
    rfl

theorem find_history_upsert : (db.upsert ev).indexHistory.find (ev.path, int64 ev.scanId) =
    if (ev.row.mtime, ev.row.msize) = db.fingerprint ev.path then
      db.indexHistory.find (ev.path, int64 ev.scanId)
    else (db.indexHistory.find (ev.path, int64 ev.scanId)).or (some ev.row) := by
  unfold upsert
  split
  · rfl
  · rw [upsertHistory, Table.find_insertRow, if_pos rfl]
    rfl

theorem fingerprint_congr {db' : Database}
    (h : db.indexCurrent.find path = db'.indexCurrent.find path) :
    db.fingerprint path = db'.fingerprint path := by
  rw [fingerprint, fingerprint, h]

end Upsert

section MarkDeleted

variable {db} {info : DeleteTask} {path : Path} {i : ℤ} {k : Path × ℤ}

@[simp] theorem scanTask_markDeleted : (db.markDeleted info).scanTask = db.scanTask := by
  unfold markDeleted
  split <;> rfl

@[simp] theorem scanDiff_markDeleted : (db.markDeleted info).scanDiff = db.scanDiff := by
  unfold markDeleted
  split <;> rfl

theorem indexHistory_markDeleted :
    (db.markDeleted info).indexHistory = (db.markDeletedHistory info).indexHistory := by
  unfold markDeleted
  split <;> rfl

theorem find_current_markDeleted : (db.markDeleted info).indexCurrent.find path =
    (db.indexCurrent.find path).filter fun r => info.canceled || !info.stale path r := by
  unfold markDeleted
  cases info.canceled with
  | true =>
    simp only [if_true, Bool.true_or, markDeletedHistory]
    cases db.indexCurrent.find path <;> rfl
  | false =>
    simp only [Bool.false_eq_true, if_false, Bool.false_or]
    rfl

theorem find_marks : (info.marks db.indexCurrent).find (path, int64 info.scanId) =
    ((db.indexCurrent.find path).filter (info.stale path)).map info.mark := by
  rw [DeleteTask.marks, Table.find_ofFind, if_pos rfl]

theorem find_marks_of_ne (h : i ≠ int64 info.scanId) :
    (info.marks db.indexCurrent).find (path, i) = none := by
  rw [DeleteTask.marks, Table.find_ofFind, if_neg h]

theorem find_history_markDeleted_of_ne (h : i ≠ int64 info.scanId) :
    (db.markDeleted info).indexHistory.find (path, i) = db.indexHistory.find (path, i) := by
  rw [indexHistory_markDeleted, markDeletedHistory, Table.insertAll]
  split_ifs
  · rw [Table.find_insertEach, find_marks_of_ne h, Option.or_none]
  · rfl

/-- A path that is not stale gets no row. -/
theorem find_history_markDeleted_of_fresh
    (h : ∀ r, db.indexCurrent.find path = some r → info.stale path r = false) :
    (db.markDeleted info).indexHistory.find (path, int64 info.scanId) =
      db.indexHistory.find (path, int64 info.scanId) := by
  rw [indexHistory_markDeleted, markDeletedHistory, Table.insertAll]
  split_ifs
  · have hnone : (db.indexCurrent.find path).filter (info.stale path) = none := by
      rw [Option.filter_eq_none_iff]
      intro r hr
      simp [h r hr]
    rw [Table.find_insertEach, find_marks, hnone, Option.map_none, Option.or_none]
  · rfl

/-- When no key is taken, each stale path gets a row. -/
theorem find_history_markDeleted
    (h : ∀ p r, db.indexCurrent.find p = some r → info.stale p r = true →
      db.indexHistory.find (p, int64 info.scanId) = none) :
    (db.markDeleted info).indexHistory.find (path, int64 info.scanId) =
      (db.indexHistory.find (path, int64 info.scanId)).or
        (((db.indexCurrent.find path).filter (info.stale path)).map info.mark) := by
  rw [indexHistory_markDeleted, markDeletedHistory, Table.find_insertAll, find_marks]
  rintro ⟨p, i⟩ hp
  rcases eq_or_ne i (int64 info.scanId) with hi | hi
  · rw [hi] at hp ⊢
    rw [find_marks, Option.isSome_map] at hp
    obtain ⟨r, hr⟩ := Option.isSome_iff_exists.mp hp
    obtain ⟨hr, hs⟩ := Option.filter_eq_some_iff.mp hr
    exact h p r hr hs
  · rw [find_marks_of_ne hi] at hp
    cases hp

/-- When the key of one stale path is taken, no path gets a row. -/
theorem indexHistory_markDeleted_of_taken {r : CurrentRow}
    (hr : db.indexCurrent.find path = some r) (hs : info.stale path r = true)
    (ht : (db.indexHistory.find (path, int64 info.scanId)).isSome) :
    (db.markDeleted info).indexHistory = db.indexHistory := by
  rw [indexHistory_markDeleted, markDeletedHistory]
  refine Table.insertAll_of_taken ?_ ht
  rw [find_marks, hr, Option.filter_some, if_pos hs]
  rfl

end MarkDeleted

end Database

namespace IndexWriter

/-- A failed `SELECT` counts as no row, and the result of the other statements is only logged. -/
def upsert (ev : FileEvent) : DatabaseSession Unit := do
  let found ← Session.query
  let latest := (found.map fun db => db.fingerprint ev.path).getD (-1, -1)
  let _ ← Session.step fun db => db.upsertCurrent ev
  if (ev.row.mtime, ev.row.msize) = latest then
    return
  let _ ← Session.step fun db => db.upsertHistory ev

def markDeleted (info : DeleteTask) : DatabaseSession Unit :=
  Session.transaction do
    let _ ← Session.step fun db => db.markDeletedHistory info
    -- a canceled scan keeps index_current as the baseline
    if !info.canceled then
      let _ ← Session.step fun db => db.deleteCurrent info

variable {d e : Database} {ev : FileEvent} {info : DeleteTask}

theorem run_upsert_flawless : (upsert ev).run (.flawless (.opened d e)) =
    .ok () (.flawless (.opened d (e.upsert ev))) := by
  simp only [upsert, EStateM.run_bind, Session.run_query_flawless, Option.map_some,
    Option.getD_some, Session.run_step_flawless, Database.upsert]
  split_ifs with h
  · rfl
  · rfl

theorem quiet_markDeleted : Session.Quiet (do
    let _ ← Session.step fun db => db.markDeletedHistory info
    if !info.canceled then
      let _ ← Session.step fun db => db.deleteCurrent info : DatabaseSession Unit) := by
  apply Session.quiet_step.bind
  intro _
  cases info.canceled with
  | true => exact Session.Quiet.pure ()
  | false => exact Session.quiet_step.bind fun _ => Session.Quiet.pure ()

theorem isTransaction_markDeleted : Session.IsTransaction (markDeleted info) :=
  ⟨_, quiet_markDeleted, rfl⟩

theorem run_markDeleted_flawless : (markDeleted info).run (.flawless (.closed d)) =
    .ok () (.flawless (.closed (d.markDeleted info))) := by
  simp only [markDeleted, Session.transaction, EStateM.run_bind, Session.run_begin_flawless,
    Session.run_step_flawless, Database.markDeleted]
  cases info.canceled <;> rfl

end IndexWriter

end ScanDaemon
