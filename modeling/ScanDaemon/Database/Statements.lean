import ScanDaemon.Database.IndexReader
import ScanDaemon.Database.IndexWriter
import ScanDaemon.Database.ScanTable

/-! # Tables that statements have written

Every statement that writes to the database is a constructor here, so that what
is shown of such tables holds for any order of the scans, between any two
statements, and whichever statements fail.
-/

namespace ScanDaemon

open Relational

namespace Database

/-- The tables after some of the statements of the result thread. -/
inductive Built : Database → Prop where

  | empty : Built .empty

  | upsertCurrent {db : Database} (ev : FileEvent) : Built db → Built (db.upsertCurrent ev)

  | upsertHistory {db : Database} (ev : FileEvent) : Built db → Built (db.upsertHistory ev)

  | markDeletedHistory {db : Database} (info : DeleteTask) :
      Built db → Built (db.markDeletedHistory info)

  | deleteCurrent {db : Database} (info : DeleteTask) : Built db → Built (db.deleteCurrent info)

  | upsertTask {db : Database} (row : ScanTaskRow) : Built db → Built (db.upsertTask row)

  | upsertDiff {db : Database} (id : ScanId) (kept : Path → Bool) :
      Built db → Built (db.upsertDiff id kept)

  | updateCount {db : Database} (id : ScanId) (counts : ScanCounts) :
      Built db → Built (db.updateCount id counts)

namespace Built

variable {db : Database} {ev : FileEvent} {info : DeleteTask} {id : ScanId} {p : Path} {i : ℤ}
  {r : CurrentRow}

theorem upsert (h : Built db) : Built (db.upsert ev) := by
  unfold Database.upsert
  split_ifs
  · exact h.upsertCurrent ev
  · exact (h.upsertCurrent ev).upsertHistory ev

theorem markDeleted (h : Built db) : Built (db.markDeleted info) := by
  unfold Database.markDeleted
  split_ifs
  · exact h.markDeletedHistory info
  · exact (h.markDeletedHistory info).deleteCurrent info

theorem findScanDiff (h : Built db) : Built (db.findScanDiff id) := by
  rw [← upsertDiff_true]
  exact h.upsertDiff id _

theorem upsertCount (h : Built db) : Built (db.upsertCount id) := h.updateCount id _

/-- A row of `index_current` carries the extension of its path. -/
theorem extension (h : Built db) (hr : db.indexCurrent.find p = some r) :
    r.extension = IndexWriter.getExtension p := by
  induction h generalizing p r with
  | empty => cases hr
  | upsertCurrent ev _ ih =>
    rw [Database.upsertCurrent, Table.find_replace] at hr
    split_ifs at hr with hp
    · obtain rfl := Option.some.inj hr
      rw [hp]
      rfl
    · exact ih hr
  | deleteCurrent info _ ih =>
    rw [Database.deleteCurrent, Table.find_delete] at hr
    exact ih (Option.filter_eq_some_iff.mp hr).1
  | upsertHistory _ _ ih | markDeletedHistory _ _ ih | upsertTask _ _ ih | upsertDiff _ _ _ ih
  | updateCount _ _ _ ih => exact ih hr

/-- A path in the diff of a scan has a history row of this scan. -/
theorem diff_in_history (h : Built db) (hd : (db.scanDiff.find (i, p)).isSome) :
    (db.indexHistory.find (p, i)).isSome := by
  induction h with
  | empty => cases hd
  | upsertHistory ev _ ih =>
    rw [Database.upsertHistory, Table.find_insertRow]
    split_ifs
    · simp
    · exact ih hd
  | markDeletedHistory info _ ih =>
    rw [Database.markDeletedHistory, Table.insertAll]
    split_ifs
    · rw [Table.find_insertEach]
      simp [ih hd]
    · exact ih hd
  | upsertDiff id kept h ih =>
    rw [Database.upsertDiff, Table.find_insertEach, Option.isSome_or, Bool.or_eq_true] at hd
    rcases hd with hd | hd
    · exact ih hd
    · -- the row comes from the history row of the path
      obtain ⟨d, hd⟩ := Option.isSome_iff_exists.mp hd
      have hdiff := (Option.filter_eq_some_iff.mp hd).1
      rw [diffRows, Table.find_ofFind] at hdiff
      split_ifs at hdiff with hi
      obtain ⟨r, hr, -⟩ := Option.map_eq_some_iff.mp hdiff
      have hi : i = int64 id := hi
      rw [hi]
      exact Option.isSome_iff_exists.mpr ⟨r, hr⟩
  | upsertCurrent _ _ ih | deleteCurrent _ _ ih | upsertTask _ _ ih | updateCount _ _ _ ih =>
    exact ih hd

end Built

end Database

end ScanDaemon
