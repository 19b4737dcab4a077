import ScanDaemon.Library.Table
import ScanDaemon.Library.Session
import ScanDaemon.Common.Types

/-! # The tables of the index

The four tables that `DatabaseInitialization` creates, each with its primary
key. An SQLite integer has 64 bits and a sign.
-/

namespace ScanDaemon

open Relational

/-- `static_cast<int64_t>` -/
def int64 (n : ℤ) : ℤ := n.bmod (2 ^ 64)

/-- `static_cast<uint64_t>` of a stored integer. -/
def uint64 (n : ℤ) : ℕ := (n % 2 ^ 64).toNat

theorem int64_eq_self {n : ℕ} (h : n < 2 ^ 63) : int64 n = n := by
  rw [int64, Int.bmod_eq_of_le_mul_two] <;> omega

theorem uint64_int64 {n : ℕ} (h : n < 2 ^ 64) : uint64 (int64 n) = n := by
  have hm : ((n : ℤ).bmod (2 ^ 64)) % 2 ^ 64 = n % 2 ^ 64 := Int.bmod_emod
  rw [uint64, int64, hm]
  omega

theorem int64_inj {m n : ℕ} (hm : m < 2 ^ 64) (hn : n < 2 ^ 64) (h : int64 m = int64 n) :
    m = n := by
  rw [← uint64_int64 hm, ← uint64_int64 hn, h]

attribute [irreducible] int64 uint64

/-- A row of `index_history` without its key `(path, last_scan_id)`. -/
structure HistoryRow where
  nodeType : NodeType
  mtime : ℤ
  msize : ℤ
  state : EventState
  errMsg : List Char
  extension : List Char
  deriving DecidableEq, Repr

/-- A row of `index_current` without its key `path`. -/
structure CurrentRow extends HistoryRow where
  scanId : ℤ
  deriving DecidableEq, Repr

/-- The columns of `scan_task_table` that `upsert_count` fills in. -/
structure ScanCounts where
  dirCount : ℤ
  fileCount : ℤ
  linkCount : ℤ
  totalSize : ℤ
  deriving DecidableEq, Repr

/-- A row of `scan_task_table` without its key `scan_id`. -/
structure TaskRow where
  submitRoot : Path
  startTime : ℤ
  finishTime : ℤ
  endState : RequestState
  counts : Option ScanCounts
  deriving DecidableEq, Repr

/-- A row of `scan_diff_table` without its key `(scan_id, path)`. -/
structure DiffRow where
  diffState : ScanState
  oldSize : ℤ
  deriving DecidableEq, Repr

structure Database where
  indexHistory : Table (Path × ℤ) HistoryRow
  indexCurrent : Table Path CurrentRow
  scanTask : Table ℤ TaskRow
  scanDiff : Table (ℤ × Path) DiffRow

namespace Database

@[ext] theorem ext {db db' : Database}
    (hh : ∀ k, db.indexHistory.find k = db'.indexHistory.find k)
    (hc : ∀ k, db.indexCurrent.find k = db'.indexCurrent.find k)
    (ht : ∀ k, db.scanTask.find k = db'.scanTask.find k)
    (hd : ∀ k, db.scanDiff.find k = db'.scanDiff.find k) : db = db' := by
  cases db
  cases db'
  congr
  · exact Table.ext hh
  · exact Table.ext hc
  · exact Table.ext ht
  · exact Table.ext hd

/-- The tables as `DatabaseInitialization` creates them. -/
def empty : Database := ⟨∅, ∅, ∅, ∅⟩

end Database

/-- The result thread's work on its connection; the loop over a scan's diff writes one row for each
path. -/
abbrev DatabaseSession := Session Database Path

end ScanDaemon
