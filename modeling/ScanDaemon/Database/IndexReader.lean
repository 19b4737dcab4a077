import ScanDaemon.Database.Tables
import ScanDaemon.Library.Versions

/-! # The diff of a scan

`find_scan_diff_and_upsert_scandiff` turns the history rows of a scan into diff
rows. Whether a path is new or changed follows from its latest earlier history
row that is not `Canceled`.
-/

namespace ScanDaemon

open Relational

/-- The ids below `id` under which a path has a history row that is not `Canceled`. -/
def earlierIds (history : Table (Path × ℤ) HistoryRow) (path : Path) (id : ℤ) : Finset ℤ :=
  (history.select fun k r => k.1 = path && k.2 < id && r.state != .canceled).image Prod.snd

/-- The correlated subqueries of `stmt_find_scan_diff_`: the latest such row. -/
def prevRow (history : Table (Path × ℤ) HistoryRow) (path : Path) (id : ℤ) : Option HistoryRow :=
  if h : (earlierIds history path id).Nonempty then
    history.find (path, (earlierIds history path id).max' h)
  else none

/-- `ScanState::New` is the value of `EventState::Alive`; the row before tells `New` and `Changed`
apart. -/
def diffState (state : EventState) (prev : Option HistoryRow) : ScanState :=
  match state with
  | .alive =>
    match prev with
    | some r => if r.state = .deleted then .new else .changed
    | none => .new
  | .error => .error
  | .deleted => .deleted
  | .canceled => .canceled

theorem diffState_alive_of_gone {prev : Option HistoryRow}
    (h : ∀ r, prev = some r → r.state = .deleted) : diffState .alive prev = .new := by
  cases prev with
  | none => rfl
  | some r => simp [diffState, h r rfl]

def diffRow (r : HistoryRow) (prev : Option HistoryRow) : DiffRow where
  diffState := diffState r.state prev
  oldSize := (prev.map HistoryRow.msize).getD 0

/-- The diff rows that the history rows of a scan give. -/
def diffRows (id : ScanId) (history : Table (Path × ℤ) HistoryRow) : Table (ℤ × Path) DiffRow :=
  .ofFind (fun k => if k.1 = int64 id
      then (history.find (k.2, int64 id)).map fun r => diffRow r (prevRow history k.2 (int64 id))
      else none)
    (history.keys.image Prod.swap) fun k hk => by
      obtain ⟨i, p⟩ := k
      split_ifs at hk with hi
      · have hi : i = int64 id := hi
        have hp : (history.find (p, int64 id)).isSome := by simpa using hk
        rw [hi]
        exact Finset.mem_image_of_mem Prod.swap ((history.mem_keys _).mpr hp)
      · simp at hk

namespace Database

/-- The rows that the loop writes when the inserts of the paths in `kept` succeed. -/
def upsertDiff (id : ScanId) (kept : Path → Bool) (db : Database) : Database :=
  { db with
    scanDiff := .insertEach ((diffRows id db.indexHistory).filter fun k _ => kept k.2) db.scanDiff }

/-- `find_scan_diff_and_upsert_scandiff` without a failure. -/
@[simps indexHistory indexCurrent scanTask] def findScanDiff (id : ScanId) (db : Database) :
    Database :=
  { db with scanDiff := .insertEach (diffRows id db.indexHistory) db.scanDiff }

theorem upsertDiff_true {id : ScanId} {db : Database} :
    db.upsertDiff id (fun _ => true) = db.findScanDiff id := by
  have hf : (diffRows id db.indexHistory).filter (fun _ _ => true) =
      diffRows id db.indexHistory := by
    ext k
    simp
  rw [upsertDiff, findScanDiff, hf]

theorem find_diffRows {id : ScanId} {history : Table (Path × ℤ) HistoryRow} {path : Path} :
    (diffRows id history).find (int64 id, path) =
      (history.find (path, int64 id)).map fun r => diffRow r (prevRow history path (int64 id)) := by
  rw [diffRows, Table.find_ofFind, if_pos rfl]

theorem find_diffRows_of_ne {id : ScanId} {history : Table (Path × ℤ) HistoryRow} {path : Path}
    {i : ℤ} (h : i ≠ int64 id) : (diffRows id history).find (i, path) = none := by
  rw [diffRows, Table.find_ofFind, if_neg h]

theorem find_scanDiff_findScanDiff {id : ScanId} {db : Database} {path : Path} :
    (db.findScanDiff id).scanDiff.find (int64 id, path) =
      (db.scanDiff.find (int64 id, path)).or ((db.indexHistory.find (path, int64 id)).map fun r =>
        diffRow r (prevRow db.indexHistory path (int64 id))) := by
  rw [findScanDiff, Table.find_insertEach, find_diffRows]

theorem find_scanDiff_findScanDiff_of_ne {id : ScanId} {db : Database} {path : Path} {i : ℤ}
    (h : i ≠ int64 id) : (db.findScanDiff id).scanDiff.find (i, path) =
      db.scanDiff.find (i, path) := by
  rw [findScanDiff, Table.find_insertEach, find_diffRows_of_ne h, Option.or_none]

end Database

namespace IndexReader

/-- The loop ends early when a step of the query fails; the inserts are then missing. -/
def findScanDiff (id : ScanId) : DatabaseSession Unit :=
  Session.transaction (Session.stepEach fun kept db => db.upsertDiff id kept)

theorem isTransaction_findScanDiff {id : ScanId} : Session.IsTransaction (findScanDiff id) :=
  ⟨_, Session.quiet_stepEach, rfl⟩

theorem run_findScanDiff_flawless {id : ScanId} {d : Database} :
    (findScanDiff id).run (.flawless (.closed d)) =
      .ok () (.flawless (.closed (d.findScanDiff id))) := by
  rw [← Database.upsertDiff_true]
  rfl

end IndexReader

section PrevRow

variable {history history' : Table (Path × ℤ) HistoryRow} {path : Path} {id k : ℤ} {r : HistoryRow}

theorem mem_earlierIds : k ∈ earlierIds history path id ↔
    k < id ∧ ∃ r, history.find (path, k) = some r ∧ r.state ≠ .canceled := by
  simp only [earlierIds, Finset.mem_image, Table.mem_select, Bool.and_eq_true, decide_eq_true_eq,
    bne_iff_ne, Prod.exists, exists_eq_right]
  constructor
  · rintro ⟨p, r, hr, ⟨rfl, hk⟩, hs⟩
    exact ⟨hk, r, hr, hs⟩
  · rintro ⟨hk, r, hr, hs⟩
    exact ⟨path, r, hr, ⟨rfl, hk⟩, hs⟩

/-- The row found is one under the largest of the ids. -/
theorem prevRow_eq_some (hk : k ∈ earlierIds history path id)
    (hmax : ∀ j ∈ earlierIds history path id, j ≤ k) :
    prevRow history path id = history.find (path, k) := by
  have hne : (earlierIds history path id).Nonempty := ⟨k, hk⟩
  rw [prevRow, dif_pos hne]
  congr 2
  exact le_antisymm (hmax _ (Finset.max'_mem _ hne)) (Finset.le_max' _ _ hk)

theorem prevRow_eq_none (h : ∀ j, j ∉ earlierIds history path id) :
    prevRow history path id = none := by
  rw [prevRow, dif_neg]
  rintro ⟨k, hk⟩
  exact h k hk

/-- Only the earlier rows of the path matter. -/
theorem prevRow_congr
    (h : ∀ j < id, history.find (path, j) = history'.find (path, j)) :
    prevRow history path id = prevRow history' path id := by
  have he : earlierIds history path id = earlierIds history' path id := by
    ext k
    rw [mem_earlierIds, mem_earlierIds]
    exact and_congr_right fun hk => by rw [h k hk]
  rw [prevRow, prevRow]
  simp only [he]
  split_ifs with hne
  · have hm := Finset.max'_mem _ hne
    exact h _ (mem_earlierIds.mp hm).1
  · rfl

/-- The rows that the subqueries consider. -/
def HistoryRow.Counts (r : HistoryRow) : Prop := r.state ≠ .canceled

/-- The row found is the latest one when all rows of the path are earlier. -/
theorem prevRow_eq_some_iff (h : ∀ j, (history.find (path, j)).isSome → j < id) :
    prevRow history path id = some r ↔ Latest HistoryRow.Counts history path r := by
  have hlt : ∀ j w, history.find (path, j) = some w → j < id := fun j w hw => h j (by simp [hw])
  constructor
  · intro hr
    unfold prevRow at hr
    split_ifs at hr with hne
    · obtain ⟨-, w, hw, hs⟩ := mem_earlierIds.mp (Finset.max'_mem _ hne)
      obtain rfl : w = r := Option.some.inj (hw.symm.trans hr)
      refine ⟨_, hr, hs, ?_⟩
      intro j v hv hq
      exact Finset.le_max' _ _ (mem_earlierIds.mpr ⟨hlt j v hv, v, hv, hq⟩)
  · rintro ⟨i, hr, hs, hmax⟩
    rw [prevRow_eq_some (mem_earlierIds.mpr ⟨hlt i r hr, r, hr, hs⟩), hr]
    intro j hj
    obtain ⟨-, w, hw, hq⟩ := mem_earlierIds.mp hj
    exact hmax j w hw hq

end PrevRow

end ScanDaemon
