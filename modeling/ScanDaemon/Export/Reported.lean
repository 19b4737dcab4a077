import ScanDaemon.Export.ScanRun

/-! # Outcomes that change in kind

`upsert` overwrites state, message and node type in `index_current`, but decides
from `mtime` and `msize` alone whether the history, and with it the diff of the
scan, gets a row.
-/

namespace ScanDaemon

open Relational

/-- The outcome of an event is of another kind than the stored row. -/
def FileEvent.DiffersInKind (ev : FileEvent) (old : CurrentRow) : Prop :=
  ev.row.state ≠ old.state ∨ ev.nodeType ≠ old.nodeType

namespace ScanRun

variable {scan : ScanRun} {db db' : Database} {t : ResultThread} {ev : FileEvent}

/-- The diff rows of a scan that ends in `db'` name each path whose outcome differs in kind from
its row in `db`. -/
def ReportsKinds (scan : ScanRun) (db db' : Database) : Prop :=
  ∀ ev ∈ scan.events, ∀ old, db.indexCurrent.find ev.path = some old → ev.DiffersInKind old →
    (db'.scanDiff.find (int64 scan.id, ev.path)).isSome

/-- Where the outcome differs in kind, so do `mtime` or `msize`. -/
def KindsMoveFingerprints (scan : ScanRun) (db : Database) : Prop :=
  ∀ ev ∈ scan.events, ∀ old, db.indexCurrent.find ev.path = some old → ev.DiffersInKind old →
    int64 ev.modtime ≠ old.mtime ∨ int64 ev.size ≠ old.msize

/-- A visited path is in the diff exactly if its fingerprint differs from the one before. -/
theorem isSome_scanDiff_stored (hf : scan.Fresh db) (hdist : scan.DistinctPaths)
    (hev : ev ∈ scan.events) :
    ((scan.stored db).scanDiff.find (int64 scan.id, ev.path)).isSome ↔
      (ev.row.mtime, ev.row.msize) ≠ db.fingerprint ev.path := by
  rw [find_scanDiff_stored, hf.diff, Option.none_or, Option.isSome_map,
    find_history_marked_of_mem hf hdist hev]
  split_ifs with h
  · exact iff_of_false (by simp) (not_not_intro h)
  · exact iff_of_true rfl h

/-- A scan reports the outcomes that differ in kind exactly if their fingerprints differ as well. -/
theorem reportsKinds_iff (batchSize : ℕ) (hf : scan.Fresh db) (hdist : scan.DistinctPaths)
    (ht : t.batchCount = 0) (hrow : t.pendingScanRows.lookup scan.id = some scan.row) :
    ∃ t' db', (ResultThread.writeResultToDb batchSize scan.popped t).run (.flawless (.closed db)) =
      .ok t' (.flawless (.closed db')) ∧
        (scan.ReportsKinds db db' ↔ scan.KindsMoveFingerprints db) := by
  obtain ⟨t', hrun⟩ := run_popped scan db batchSize ht hrow
  refine ⟨t', scan.stored db, hrun, ?_⟩
  apply forall₂_congr
  intro ev hev
  apply forall₂_congr
  intro old hold
  apply imp_congr_right
  intro _
  have hprint : db.fingerprint ev.path = (old.mtime, old.msize) := by
    rw [Database.fingerprint, hold]
    rfl
  rw [isSome_scanDiff_stored hf hdist hev, hprint, Ne, Prod.mk.injEq, not_and_or]
  exact Iff.rfl

/-! A directory that was readable cannot be opened by the next scan. -/

def lockedDir : FileEvent where
  scanId := 2
  modtime := 5
  size := 4096
  err := ⟨13, ['P', 'e', 'r', 'm', 'i', 's', 's', 'i', 'o', 'n', ' ', 'd', 'e', 'n', 'i', 'e', 'd']⟩
  path := ['/', 'a', '/', 'd']
  nodeType := .dir
  endSignal := ⟨false, false⟩

def lockedScan : ScanRun where
  row := ⟨2, 0, 0, ['/', 'a'], .done⟩
  events := [lockedDir]
  fin := ⟨2, 0, 0, .ok, ['/', 'a'], .unknown, ⟨true, false⟩⟩
  sentinel := rfl
  plain := by simp [lockedDir]
  sameScan := by simp [lockedDir]
  rowScan := rfl
  idLt := by decide

/-- The tables with the directory as scan 1 found it. -/
def readable : Database :=
  Database.empty.upsert { lockedDir with scanId := 1, err := .ok }

def lockedThread : ResultThread := ⟨0, (∅ : ScanMap ScanTaskRow).insert 2 lockedScan.row, ∅⟩

theorem fresh_readable : lockedScan.Fresh readable := by
  constructor
  · intro path
    rw [readable, Database.find_history_upsert_of_ne]
    · rfl
    · intro h
      have h₂ : int64 ((2 : ℕ) : ℤ) = int64 ((1 : ℕ) : ℤ) := congrArg Prod.snd h
      exact absurd (int64_inj (by decide) (by decide) h₂) (by decide)
  · intro path
    rw [readable, Database.scanDiff_upsert]
    rfl

theorem find_readable : readable.indexCurrent.find lockedDir.path =
    some ⟨{ lockedDir.row with state := .alive, errMsg := [] }, int64 1⟩ := by
  rw [readable, Database.find_current_upsert]
  rfl

/-- The scan's diff does not name the directory. -/
theorem locked_unreported : ∃ t' db',
    (ResultThread.writeResultToDb 1 lockedScan.popped lockedThread).run
      (.flawless (.closed readable)) = .ok t' (.flawless (.closed db')) ∧
        ¬lockedScan.ReportsKinds readable db' := by
  obtain ⟨t', hrun⟩ := run_popped lockedScan readable (t := lockedThread) 1 rfl
    (AList.lookup_insert _)
  refine ⟨t', _, hrun, ?_⟩
  intro h
  have hdir := h lockedDir List.mem_cons_self _ find_readable (.inl (by decide))
  rw [isSome_scanDiff_stored fresh_readable (List.nodup_singleton _) List.mem_cons_self,
    Database.fingerprint, find_readable] at hdir
  exact hdir rfl

theorem reportsKinds_iff_locked : ∃ t' db',
    (ResultThread.writeResultToDb 1 lockedScan.popped lockedThread).run
      (.flawless (.closed readable)) = .ok t' (.flawless (.closed db')) ∧
        (lockedScan.ReportsKinds readable db' ↔ lockedScan.KindsMoveFingerprints readable) :=
  reportsKinds_iff 1 fresh_readable (List.nodup_singleton _) rfl (AList.lookup_insert _)

end ScanRun

end ScanDaemon
