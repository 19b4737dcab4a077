import Mathlib.Data.List.AList
import Mathlib.Tactic

/-! # Data shared by the subsystems

The request states of a scan, the events that scanners hand to the exporter,
and the rows kept for a scan. Strings are lists of `Char`: in the modules of the
HTTP server and of the configuration a `Char` is a byte, in those of the database
it is a character. There every text is taken to be valid UTF-8, which SQLite reads
by characters where it compares a text with a pattern, counts or cuts it.
-/

namespace ScanDaemon

abbrev ScanId := ℕ

/-- The contents of a `std::string` that holds a path. -/
abbrev Path := List Char

/-- An `unordered_map` keyed by scan ids. -/
abbrev ScanMap (α : Type) := AList fun _ : ScanId => α

namespace ScanMap

variable {α : Type} {m : ScanMap α} {id k : ScanId} {v : α}

@[simp] theorem lookup_insert :
    (m.insert k v).lookup id = if id = k then some v else m.lookup id := by
  split
  · subst id; exact AList.lookup_insert m
  · exact AList.lookup_insert_ne ‹_›

@[simp] theorem lookup_erase : (m.erase k).lookup id = if id = k then none else m.lookup id := by
  split
  · subst id; exact AList.lookup_erase _ m
  · exact AList.lookup_erase_ne ‹_›

@[simp] theorem lookup_empty : AList.lookup id (∅ : ScanMap α) = none := AList.lookup_empty _

end ScanMap

/-- The states of a request; `dispatching` is internal to the scheduler. -/
inductive RequestState
  | pending | dropped | running | canceled | done | failed | dispatching
  deriving DecidableEq, Repr

inductive NodeType | unknown | dir | file | link
  deriving DecidableEq, Repr

inductive EventState | alive | error | deleted | canceled
  deriving DecidableEq, Repr

/-- `ScanState` repeats the values of `EventState` and adds `changed`. -/
inductive ScanState | new | error | deleted | canceled | changed
  deriving DecidableEq, Repr

/-- A `std::error_code` with its message; the value 0 is success. -/
structure ErrorCode where
  value : ℤ
  message : List Char
  deriving DecidableEq, Repr

/-- The default `std::error_code`. -/
def ErrorCode.ok : ErrorCode := ⟨0, []⟩

structure Sentinel where
  isSentinel : Bool
  isCanceled : Bool
  deriving DecidableEq, Repr

/-- What a scanner records for one node, or the sentinel that ends a scan. -/
structure FileEvent where
  scanId : ScanId
  modtime : ℤ
  size : ℕ
  err : ErrorCode
  path : Path
  nodeType : NodeType
  endSignal : Sentinel
  deriving DecidableEq, Repr

/-- The row of a scan in `scan_task_table`. -/
structure ScanTaskRow where
  scanId : ScanId
  startTime : ℕ
  finishTime : ℕ
  submitRoot : Path
  endState : RequestState
  deriving DecidableEq, Repr

/-- A row without a root takes the path of its sentinel. -/
def ScanTaskRow.withRoot (row : ScanTaskRow) (path : Path) : ScanTaskRow :=
  if row.submitRoot.isEmpty then { row with submitRoot := path } else row

@[simp] theorem ScanTaskRow.withRoot_scanId (row : ScanTaskRow) (path : Path) :
    (row.withRoot path).scanId = row.scanId := by
  unfold withRoot; split <;> rfl

theorem ScanTaskRow.withRoot_of_ne {row : ScanTaskRow} {path : Path} (h : row.submitRoot ≠ []) :
    row.withRoot path = row := by
  simp [withRoot, h]

/-- The parameters of the daemon that `Config` loads. -/
structure Config where
  /-- `scheduler().max_concurrent_scan`, an `int` that `Config::load` keeps positive -/
  maxConcurrentScan : ℕ
  /-- `scheduler().queue_max_size` -/
  queueMaxSize : ℕ
  /-- `manager().scan_queue_max_size` -/
  scanQueueMaxSize : ℕ
  /-- `manager().scan_pool_num_threads` -/
  scanPoolNumThreads : ℕ
  /-- `exportmanager().que_size` -/
  queSize : ℕ
  /-- `httpserver().fd_pool_num_threads` -/
  fdPoolNumThreads : ℕ

end ScanDaemon
