import ScanDaemon.Export.ResultWriter

/-! # One scan in the tables

When the events of a scan have distinct paths, what is stored for one of them
is compared with what was there before the scan. A path is reported in the diff
exactly if its fingerprint differs, whatever else does.
-/

namespace ScanDaemon

open Relational

/-- What the result thread pops for one scan, with the row of the scan. -/
structure ScanRun where
  row : ScanTaskRow
  events : List FileEvent
  fin : FileEvent
  sentinel : fin.endSignal.isSentinel = true
  plain : ∀ ev ∈ events, ev.endSignal.isSentinel = false
  sameScan : ∀ ev ∈ events, ev.scanId = fin.scanId
  rowScan : row.scanId = fin.scanId
  idLt : fin.scanId < 2 ^ 64

namespace ScanRun

variable (scan : ScanRun)

def id : ScanId := scan.fin.scanId

def popped : List FileEvent := scan.events ++ [scan.fin]

def root : Path := (scan.row.withRoot scan.fin.path).submitRoot

def canceled : Bool := scan.fin.endSignal.isCanceled

def DistinctPaths : Prop := (scan.events.map FileEvent.path).Nodup

def Visits (path : Path) : Prop := path ∈ scan.events.map FileEvent.path

def deleteTask : DeleteTask where
  scanId := scan.id
  submitRoot := scan.root
  canceled := scan.canceled

/-- The tables after the events of the scan. -/
def recorded (db : Database) : Database := scan.events.foldl (fun db ev => db.upsert ev) db

/-- The tables after the whole scan. -/
def stored (db : Database) : Database :=
  (scan.recorded db).finalize (scan.row.withRoot scan.fin.path) scan.fin

variable {scan} {db : Database} {t : ResultThread} {ev : FileEvent} {path : Path} {k : Path × ℤ}

theorem eq_fin_of_mem (h : ev ∈ scan.popped) (hs : ev.endSignal.isSentinel = true) :
    ev = scan.fin := by
  rcases List.mem_append.mp h with h | h
  · exact absurd hs (by simp [scan.plain ev h])
  · exact List.mem_singleton.mp h

theorem foldl_popped {rows : ScanMap ScanTaskRow} (hrow : rows.lookup scan.id = some scan.row) :
    scan.popped.foldl (Database.store rows) db = scan.stored db := by
  have hplain : scan.events.foldl (Database.store rows) db = scan.recorded db := by
    apply List.foldl_ext
    intro d ev hev
    simp [Database.store, scan.plain ev hev]
  rw [popped, List.foldl_append, hplain, List.foldl_cons, List.foldl_nil, Database.store,
    if_pos scan.sentinel, ← id, hrow]
  rfl

section Sequence

variable {scans : List ScanRun}

theorem rowsReady {rows : ScanMap ScanTaskRow} (hids : (scans.map id).Nodup)
    (hrows : ∀ scan ∈ scans, rows.lookup scan.id = some scan.row) :
    ResultThread.RowsReady rows (scans.flatMap popped) := by
  constructor
  · intro ev hev hs
    obtain ⟨scan, hscan, hev⟩ := List.mem_flatMap.mp hev
    rw [eq_fin_of_mem hev hs, ← id, hrows scan hscan]
    rfl
  · rw [List.pairwise_flatMap]
    constructor
    · intro scan _
      rw [popped, List.pairwise_append]
      refine ⟨?_, List.pairwise_singleton _ _, ?_⟩
      · apply List.pairwise_of_forall_mem_list
        intro a ha b _ hs
        exact absurd hs (by simp [scan.plain a ha])
      · intro a ha b _ hs
        exact absurd hs (by simp [scan.plain a ha])
    · rw [List.Nodup, List.pairwise_map] at hids
      apply hids.imp
      intro scan scan' hne a ha b hb hsa hsb
      rw [eq_fin_of_mem ha hsa, eq_fin_of_mem hb hsb]
      exact hne

/-- When no call fails, the result thread stores one scan after the other, whatever the batches. -/
theorem run_scans (scans : List ScanRun) (db : Database) (batchSize : ℕ)
    (hids : (scans.map id).Nodup) (ht : t.batchCount = 0)
    (hrows : ∀ scan ∈ scans, t.pendingScanRows.lookup scan.id = some scan.row) :
    ∃ t', (ResultThread.writeResultToDb batchSize (scans.flatMap popped) t).run
      (.flawless (.closed db)) =
        .ok t' (.flawless (.closed (scans.foldl (fun db scan => scan.stored db) db))) := by
  obtain ⟨t', hrun⟩ := ResultThread.run_writeResultToDb_flawless (d := db) (e := db) batchSize
    (rowsReady hids hrows)
  have hbatch : ResultThread.batch t.batchCount db db = .closed db := by
    rw [ht]
    rfl
  have hstored : (scans.flatMap popped).foldl (Database.store t.pendingScanRows) db =
      scans.foldl (fun db scan => scan.stored db) db := by
    rw [List.foldl_flatMap]
    apply List.foldl_ext
    intro d scan hscan
    exact foldl_popped (hrows scan hscan)
  rw [hbatch, hstored] at hrun
  exact ⟨t', hrun⟩

end Sequence

theorem run_popped (scan : ScanRun) (db : Database) (batchSize : ℕ) (ht : t.batchCount = 0)
    (hrow : t.pendingScanRows.lookup scan.id = some scan.row) :
    ∃ t', (ResultThread.writeResultToDb batchSize scan.popped t).run (.flawless (.closed db)) =
      .ok t' (.flawless (.closed (scan.stored db))) := by
  have hrun := run_scans [scan] db batchSize (List.nodup_singleton _) ht
  rw [List.flatMap_singleton] at hrun
  apply hrun
  intro s hs
  rw [List.mem_singleton.mp hs]
  exact hrow

/-! ## The events -/

@[simp] theorem scanTask_recorded : (scan.recorded db).scanTask = db.scanTask := by
  unfold recorded
  induction scan.events generalizing db with
  | nil => rfl
  | cons ev l ih => rw [List.foldl_cons, ih, Database.scanTask_upsert]

@[simp] theorem scanDiff_recorded : (scan.recorded db).scanDiff = db.scanDiff := by
  unfold recorded
  induction scan.events generalizing db with
  | nil => rfl
  | cons ev l ih => rw [List.foldl_cons, ih, Database.scanDiff_upsert]

section Recorded

variable {l : List FileEvent}

theorem find_current_foldl (h : path ∉ l.map FileEvent.path) :
    (l.foldl (fun db ev => db.upsert ev) db).indexCurrent.find path =
    db.indexCurrent.find path := by
  induction l generalizing db with
  | nil => rfl
  | cons ev l ih =>
    rw [List.map_cons, List.mem_cons, not_or] at h
    rw [List.foldl_cons, ih h.2, Database.find_current_upsert, if_neg h.1]

theorem find_history_foldl (h : k.1 ∉ l.map FileEvent.path) :
    (l.foldl (fun db ev => db.upsert ev) db).indexHistory.find k = db.indexHistory.find k := by
  induction l generalizing db with
  | nil => rfl
  | cons ev l ih =>
    rw [List.map_cons, List.mem_cons, not_or] at h
    rw [List.foldl_cons, ih h.2, Database.find_history_upsert_of_ne]
    rintro rfl
    exact h.1 rfl

/-- A visited path has the row of its event. -/
theorem find_current_foldl_of_mem (hl : (l.map FileEvent.path).Nodup) (hev : ev ∈ l) :
    (l.foldl (fun db ev => db.upsert ev) db).indexCurrent.find ev.path =
      some ⟨ev.row, int64 ev.scanId⟩ := by
  induction l generalizing db with
  | nil => cases hev
  | cons e l ih =>
    rw [List.map_cons, List.nodup_cons] at hl
    rw [List.foldl_cons]
    rcases List.mem_cons.mp hev with rfl | hev
    · rw [find_current_foldl hl.1, Database.find_current_upsert, if_pos rfl]
    · exact ih hl.2 hev

/-- A visited path gets a history row exactly if its fingerprint differs from the one before. -/
theorem find_history_foldl_of_mem (hl : (l.map FileEvent.path).Nodup) (hev : ev ∈ l) :
    (l.foldl (fun db ev => db.upsert ev) db).indexHistory.find (ev.path, int64 ev.scanId) =
      if (ev.row.mtime, ev.row.msize) = db.fingerprint ev.path then
        db.indexHistory.find (ev.path, int64 ev.scanId)
      else (db.indexHistory.find (ev.path, int64 ev.scanId)).or (some ev.row) := by
  induction l generalizing db with
  | nil => cases hev
  | cons e l ih =>
    rw [List.map_cons, List.nodup_cons] at hl
    rw [List.foldl_cons]
    rcases List.mem_cons.mp hev with rfl | hev
    · rw [find_history_foldl hl.1, Database.find_history_upsert]
    · have hne : ev.path ≠ e.path := fun h => hl.1 (h ▸ List.mem_map_of_mem hev)
      have hprint : (db.upsert e).fingerprint ev.path = db.fingerprint ev.path :=
        Database.fingerprint_congr (by rw [Database.find_current_upsert, if_neg hne])
      have hrow : (db.upsert e).indexHistory.find (ev.path, int64 ev.scanId) =
          db.indexHistory.find (ev.path, int64 ev.scanId) := by
        apply Database.find_history_upsert_of_ne
        intro h
        exact hne (congrArg Prod.fst h)
      rw [ih hl.2 hev, hprint, hrow]

/-- Rows under another id stay. -/
theorem find_history_foldl_of_ne {i : ℤ} (h : ∀ ev ∈ l, int64 ev.scanId ≠ i) :
    (l.foldl (fun db ev => db.upsert ev) db).indexHistory.find (path, i) =
      db.indexHistory.find (path, i) := by
  induction l generalizing db with
  | nil => rfl
  | cons e l ih =>
    rw [List.foldl_cons, ih fun ev hev => h ev (List.mem_cons_of_mem _ hev),
      Database.find_history_upsert_of_ne]
    intro hk
    exact h e List.mem_cons_self (congrArg Prod.snd hk).symm

end Recorded

/-! ## The sentinel -/

theorem markDeleted_upsertTask {row : ScanTaskRow} {info : DeleteTask} :
    (db.upsertTask row).markDeleted info = (db.markDeleted info).upsertTask row := by
  unfold Database.markDeleted
  split <;> rfl

variable (scan db) in
/-- The tables before the diff of the scan is computed. -/
def marked : Database := (scan.recorded db).markDeleted scan.deleteTask

theorem stored_eq : scan.stored db = (((scan.marked db).upsertTask
    (scan.row.withRoot scan.fin.path)).findScanDiff scan.id).upsertCount scan.id := by
  rw [marked, ← markDeleted_upsertTask]
  rfl

theorem indexHistory_stored : (scan.stored db).indexHistory = (scan.marked db).indexHistory := by
  rw [stored_eq]
  rfl

theorem indexCurrent_stored : (scan.stored db).indexCurrent = (scan.marked db).indexCurrent := by
  rw [stored_eq]
  rfl

theorem scanDiff_marked : (scan.marked db).scanDiff = db.scanDiff := by
  rw [marked, Database.scanDiff_markDeleted, scanDiff_recorded]

/-- The rows of the scan's diff are those of its rows in the history. -/
theorem find_scanDiff_stored : (scan.stored db).scanDiff.find (int64 scan.id, path) =
    (db.scanDiff.find (int64 scan.id, path)).or
      (((scan.marked db).indexHistory.find (path, int64 scan.id)).map fun r =>
        diffRow r (prevRow (scan.marked db).indexHistory path (int64 scan.id))) := by
  rw [stored_eq, Database.scanDiff_upsertCount, Database.find_scanDiff_findScanDiff,
    Database.scanDiff_upsertTask, Database.indexHistory_upsertTask, scanDiff_marked]

/-- The id of a new scan is in none of the rows that the scan adds to. -/
structure Fresh (scan : ScanRun) (db : Database) : Prop where
  history : ∀ path, db.indexHistory.find (path, int64 scan.id) = none
  diff : ∀ path, db.scanDiff.find (int64 scan.id, path) = none

theorem scanId_of_mem (hev : ev ∈ scan.events) : ev.scanId = scan.id := scan.sameScan ev hev

theorem find_current_recorded (hdist : scan.DistinctPaths) (hev : ev ∈ scan.events) :
    (scan.recorded db).indexCurrent.find ev.path = some ⟨ev.row, int64 scan.id⟩ := by
  rw [← scanId_of_mem hev]
  exact find_current_foldl_of_mem hdist hev

/-- A visited path is not stale, so its history row under the scan's id is the one of its event. -/
theorem find_history_marked_of_mem (hf : scan.Fresh db) (hdist : scan.DistinctPaths)
    (hev : ev ∈ scan.events) :
    (scan.marked db).indexHistory.find (ev.path, int64 scan.id) =
      if (ev.row.mtime, ev.row.msize) = db.fingerprint ev.path then none else some ev.row := by
  have hstale : ∀ r, (scan.recorded db).indexCurrent.find ev.path = some r →
      scan.deleteTask.stale ev.path r = false := by
    intro r hr
    rw [find_current_recorded hdist hev] at hr
    obtain rfl := Option.some.inj hr
    simp [DeleteTask.stale, deleteTask]
  have hrow : (scan.recorded db).indexHistory.find (ev.path, int64 ev.scanId) = _ :=
    find_history_foldl_of_mem hdist hev
  rw [scanId_of_mem hev, hf.history, Option.none_or] at hrow
  exact (Database.find_history_markDeleted_of_fresh hstale).trans hrow

theorem find_history_recorded_of_ne {i : ℤ} (h : i ≠ int64 scan.id) :
    (scan.recorded db).indexHistory.find (path, i) = db.indexHistory.find (path, i) := by
  apply find_history_foldl_of_ne
  intro ev hev
  rw [scanId_of_mem hev]
  exact h.symm

theorem find_history_marked_of_ne {i : ℤ} (h : i ≠ int64 scan.id) :
    (scan.marked db).indexHistory.find (path, i) = db.indexHistory.find (path, i) :=
  (Database.find_history_markDeleted_of_ne h).trans (find_history_recorded_of_ne h)

/-- A stale row is one of a path that the scan did not visit. -/
theorem notMem_of_stale {r : CurrentRow} (hdist : scan.DistinctPaths)
    (hr : (scan.recorded db).indexCurrent.find path = some r)
    (hs : scan.deleteTask.stale path r = true) : path ∉ scan.events.map FileEvent.path := by
  intro hmem
  obtain ⟨ev, hev, rfl⟩ := List.mem_map.mp hmem
  rw [find_current_recorded hdist hev] at hr
  obtain rfl := Option.some.inj hr
  simp [DeleteTask.stale, deleteTask] at hs

/-- A path that the scan did not visit gets a row under the scan's id exactly if it is stale. -/
theorem find_history_marked_of_notMem (hf : scan.Fresh db) (hdist : scan.DistinctPaths)
    (h : path ∉ scan.events.map FileEvent.path) :
    (scan.marked db).indexHistory.find (path, int64 scan.id) =
      ((db.indexCurrent.find path).filter (scan.deleteTask.stale path)).map
        scan.deleteTask.mark := by
  have hfree : ∀ p, p ∉ scan.events.map FileEvent.path →
      (scan.recorded db).indexHistory.find (p, int64 scan.id) = none := by
    intro p hp
    exact (find_history_foldl hp).trans (hf.history p)
  have hmark : (scan.marked db).indexHistory.find (path, int64 scan.deleteTask.scanId) = _ :=
    Database.find_history_markDeleted fun p r hr hs => hfree p (notMem_of_stale hdist hr hs)
  refine hmark.trans ?_
  have hnone : (scan.recorded db).indexHistory.find (path, int64 scan.deleteTask.scanId) = none :=
    hfree path h
  have hcur : (scan.recorded db).indexCurrent.find path = db.indexCurrent.find path :=
    find_current_foldl h
  rw [hnone, Option.none_or, hcur]

theorem find_current_stored_of_mem (hdist : scan.DistinctPaths) (hev : ev ∈ scan.events) :
    (scan.stored db).indexCurrent.find ev.path = some ⟨ev.row, int64 scan.id⟩ := by
  rw [indexCurrent_stored, marked, Database.find_current_markDeleted,
    find_current_recorded hdist hev]
  simp [DeleteTask.stale, deleteTask]

theorem find_current_stored_of_notMem (h : path ∉ scan.events.map FileEvent.path) :
    (scan.stored db).indexCurrent.find path = (db.indexCurrent.find path).filter fun r =>
      scan.canceled || !scan.deleteTask.stale path r := by
  have hcur : (scan.recorded db).indexCurrent.find path = db.indexCurrent.find path :=
    find_current_foldl h
  rw [indexCurrent_stored, marked, Database.find_current_markDeleted, hcur]
  rfl

/-- The diff rows of other scans stay. -/
theorem find_scanDiff_stored_of_ne {i : ℤ} (h : i ≠ int64 scan.id) :
    (scan.stored db).scanDiff.find (i, path) = db.scanDiff.find (i, path) := by
  rw [stored_eq, Database.scanDiff_upsertCount, Database.find_scanDiff_findScanDiff_of_ne h,
    Database.scanDiff_upsertTask, scanDiff_marked]

/-! Scans of a single file -/

def fileEvent (id : ScanId) (path : Path) (modtime : ℤ) : FileEvent :=
  ⟨id, modtime, 512, .ok, path, .file, ⟨false, false⟩⟩

/-- A scan whose root is a file. -/
def fileScan (id : ScanId) (path : Path) (modtime : ℤ) (hid : id < 2 ^ 64) : ScanRun where
  row := ⟨id, 0, 0, path, .done⟩
  events := [fileEvent id path modtime]
  fin := ⟨id, 0, 0, .ok, path, .unknown, ⟨true, false⟩⟩
  sentinel := rfl
  plain := by simp [fileEvent]
  sameScan := by simp [fileEvent]
  rowScan := rfl
  idLt := hid

/-- The result thread with the rows of two scans. -/
def twoRows (a b : ScanRun) : ResultThread :=
  ⟨0, ((∅ : ScanMap ScanTaskRow).insert a.id a.row).insert b.id b.row, ∅⟩

theorem lookup_twoRows {a b : ScanRun} (h : a.id ≠ b.id) :
    ∀ s ∈ [a] ++ [b], (twoRows a b).pendingScanRows.lookup s.id = some s.row := by
  intro s hs
  rw [twoRows, ScanMap.lookup_insert, ScanMap.lookup_insert]
  rcases List.mem_cons.mp hs with rfl | hs
  · rw [if_neg h, if_pos rfl]
  · rw [List.mem_singleton.mp hs, if_pos rfl]

end ScanRun

end ScanDaemon
