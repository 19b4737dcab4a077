import ScanDaemon.Export.ScanRun

/-! # The history and the index agree

The diff of a scan is read from the history alone, although it is meant as the
difference to `index_current`. It is that difference because the latest history
row of a path that is not `Canceled` describes its row in `index_current`; each
scan, complete or canceled, keeps this.
-/

namespace ScanDaemon

open Relational

namespace Database

/-- The latest history row of a path that is not `Canceled`. -/
abbrev LatestRow (db : Database) (path : Path) (r : HistoryRow) : Prop :=
  Latest HistoryRow.Counts db.indexHistory path r

/-- The latest history rows describe `index_current`. -/
structure Described (db : Database) : Prop where
  present : ∀ path c, db.indexCurrent.find path = some c →
    ∃ r, db.LatestRow path r ∧ r.state ≠ .deleted ∧ r.mtime = c.mtime ∧ r.msize = c.msize
  absent : ∀ path, db.indexCurrent.find path = none →
    ∀ r, db.LatestRow path r → r.state = .deleted

/-- The stored ids are below `i`. -/
structure Before (db : Database) (i : ℤ) : Prop where
  history : ∀ path j, (db.indexHistory.find (path, j)).isSome → j < i
  current : ∀ path c, db.indexCurrent.find path = some c → c.scanId < i
  diff : ∀ path j, (db.scanDiff.find (j, path)).isSome → j < i

theorem described_empty : empty.Described := by
  constructor
  · intro path c hc
    cases hc
  · rintro path - r ⟨i, hr, -⟩
    cases hr

theorem before_empty (i : ℤ) : empty.Before i := by
  constructor
  · intro path j hj
    cases hj
  · intro path c hc
    cases hc
  · intro path j hj
    cases hj

end Database

namespace ScanRun

variable {scan : ScanRun} {db db' : Database} {t : ResultThread} {ev : FileEvent} {path : Path}
  {old : CurrentRow}

/-- Below the root, as its pattern has it. -/
def Below (scan : ScanRun) (path : Path) : Prop := scan.root ++ ['/'] <+: path

/-- A scan without errors whose root has no special characters. -/
structure Regular (scan : ScanRun) : Prop where
  distinct : scan.DistinctPaths
  errorFree : ∀ ev ∈ scan.events, ev.err.value = 0
  sizes : ∀ ev ∈ scan.events, ev.size < 2 ^ 63
  plainRoot : ∀ c ∈ scan.root, ¬Glob.IsMeta c

/-- The fingerprint of a visited path differs from its row. -/
def Changes (ev : FileEvent) (old : CurrentRow) : Prop :=
  int64 ev.modtime ≠ old.mtime ∨ int64 ev.size ≠ old.msize

/-- The diff rows of the scan in `db'` tell its difference to `db`. -/
structure DiffFrom (scan : ScanRun) (db db' : Database) : Prop where
  new : ∀ ev ∈ scan.events, db.indexCurrent.find ev.path = none →
    ∃ n, db'.scanDiff.find (int64 scan.id, ev.path) = some ⟨.new, n⟩
  changed : ∀ ev ∈ scan.events, ∀ old, db.indexCurrent.find ev.path = some old → Changes ev old →
    db'.scanDiff.find (int64 scan.id, ev.path) = some ⟨.changed, old.msize⟩
  left : ∀ path old, db.indexCurrent.find path = some old → ¬scan.Visits path → scan.Below path →
    db'.scanDiff.find (int64 scan.id, path) =
      some ⟨if scan.canceled then .canceled else .deleted, old.msize⟩
  only : ∀ path, (db'.scanDiff.find (int64 scan.id, path)).isSome →
    (∃ ev ∈ scan.events, ev.path = path ∧ ∀ old ∈ db.indexCurrent.find path, Changes ev old) ∨
      (¬scan.Visits path ∧ scan.Below path ∧ (db.indexCurrent.find path).isSome)

theorem Fresh.of_before (h : db.Before (int64 scan.id)) : scan.Fresh db := by
  constructor
  · intro path
    rw [← Option.not_isSome_iff_eq_none]
    intro hs
    exact lt_irrefl _ (h.history path _ hs)
  · intro path
    rw [← Option.not_isSome_iff_eq_none]
    intro hs
    exact lt_irrefl _ (h.diff path _ hs)

section Step

variable (hreg : scan.Regular) (hb : db.Before (int64 scan.id)) (hd : db.Described)

include hreg in
theorem state_of_mem (hev : ev ∈ scan.events) : ev.row.state = .alive := by
  simp [FileEvent.row, hreg.errorFree ev hev]

include hreg in
/-- A size is never the −1 that stands for no row. -/
theorem eq_fingerprint_iff (hev : ev ∈ scan.events) :
    (ev.row.mtime, ev.row.msize) = db.fingerprint ev.path ↔
      ∃ old, db.indexCurrent.find ev.path = some old ∧ ¬Changes ev old := by
  have hsize : ev.row.msize = ev.size := int64_eq_self (hreg.sizes ev hev)
  rw [Database.fingerprint]
  cases db.indexCurrent.find ev.path with
  | none =>
    simp only [Option.map_none, Option.getD_none, Prod.mk.injEq, hsize]
    constructor
    · rintro ⟨-, hs⟩
      omega
    · rintro ⟨old, ho, -⟩
      cases ho
  | some c =>
    simp [Changes, FileEvent.row]

include hreg hb in
theorem stale_iff (ho : db.indexCurrent.find path = some old) :
    scan.deleteTask.stale path old = true ↔ scan.Below path := by
  have hroot : ∀ c ∈ scan.root ++ ['/'], ¬Glob.IsMeta c := by
    intro c hc
    rcases List.mem_append.mp hc with hc | hc
    · exact hreg.plainRoot c hc
    · rw [List.mem_singleton.mp hc]
      simp [Glob.IsMeta]
  have hne : (old.scanId != int64 scan.id) = true := bne_iff_ne.mpr (hb.current path old ho).ne
  have hpattern : scan.root ++ ['/', '*'] = (scan.root ++ ['/']) ++ ['*'] := by simp
  rw [DeleteTask.stale, deleteTask, Bool.and_eq_true, and_iff_left hne, hpattern,
    glob_append_star hroot, Below]

include hb in
theorem adds_marked (path : Path) :
    Adds db.indexHistory (scan.marked db).indexHistory path (int64 scan.id) :=
  ⟨fun _ hj => find_history_marked_of_ne hj, fun j hj => hb.history path j hj⟩

include hb in
/-- The row that the diff compares with is the latest one before the scan. -/
theorem prevRow_marked {r : HistoryRow} :
    prevRow (scan.marked db).indexHistory path (int64 scan.id) = some r ↔ db.LatestRow path r := by
  rw [prevRow_congr fun j hj => find_history_marked_of_ne hj.ne]
  exact prevRow_eq_some_iff fun j hj => hb.history path j hj

include hb in
theorem find_scanDiff_of_history : (scan.stored db).scanDiff.find (int64 scan.id, path) =
    ((scan.marked db).indexHistory.find (path, int64 scan.id)).map fun r =>
      diffRow r (prevRow (scan.marked db).indexHistory path (int64 scan.id)) := by
  rw [find_scanDiff_stored, (Fresh.of_before hb).diff, Option.none_or]

include hreg hb in
/-- A path that is left out of the scan gets a row when it is below the root. -/
theorem find_history_marked_of_left (hp : ¬scan.Visits path)
    (ho : db.indexCurrent.find path = some old) :
    (scan.marked db).indexHistory.find (path, int64 scan.id) =
      if scan.deleteTask.stale path old then some (scan.deleteTask.mark old) else none := by
  rw [find_history_marked_of_notMem (Fresh.of_before hb) hreg.distinct hp, ho]
  cases hs : scan.deleteTask.stale path old <;> simp [hs]

include hreg hb in
theorem before_stored {i : ℤ} (hi : int64 scan.id < i) : (scan.stored db).Before i := by
  constructor
  · intro path j hj
    rcases eq_or_ne j (int64 scan.id) with rfl | hne
    · exact hi
    · rw [indexHistory_stored, find_history_marked_of_ne hne] at hj
      exact (hb.history path j hj).trans hi
  · intro path c hc
    by_cases hp : path ∈ scan.events.map FileEvent.path
    · obtain ⟨ev, hev, rfl⟩ := List.mem_map.mp hp
      rw [find_current_stored_of_mem hreg.distinct hev] at hc
      obtain rfl := Option.some.inj hc
      exact hi
    · rw [find_current_stored_of_notMem hp] at hc
      exact (hb.current path c (Option.filter_eq_some_iff.mp hc).1).trans hi
  · intro path j hj
    rcases eq_or_ne j (int64 scan.id) with rfl | hne
    · exact hi
    · rw [find_scanDiff_stored_of_ne hne] at hj
      exact (hb.diff path j hj).trans hi

include hreg hb hd in
theorem described_of_mem (hev : ev ∈ scan.events) : ∃ r, (scan.stored db).LatestRow ev.path r ∧
    r.state ≠ .deleted ∧ r.mtime = ev.row.mtime ∧ r.msize = ev.row.msize := by
  have hadds : Adds db.indexHistory (scan.marked db).indexHistory ev.path (int64 scan.id) :=
    adds_marked hb ev.path
  have hrow := find_history_marked_of_mem (Fresh.of_before hb) hreg.distinct hev
  simp only [Database.LatestRow, indexHistory_stored]
  by_cases hsame : (ev.row.mtime, ev.row.msize) = db.fingerprint ev.path
  · -- the row before the scan is still the latest one
    rw [if_pos hsame] at hrow
    obtain ⟨old, ho, hc⟩ := (eq_fingerprint_iff hreg hev).mp hsame
    rw [Changes, not_or, not_not, not_not] at hc
    obtain ⟨r, hr, hs, hm, hz⟩ := hd.present ev.path old ho
    refine ⟨r, ?_, hs, hm.trans hc.1.symm, hz.trans hc.2.symm⟩
    rw [hadds.latest_iff fun v hv => by simp [hrow] at hv]
    exact hr
  · rw [if_neg hsame] at hrow
    have halive := state_of_mem hreg hev
    refine ⟨ev.row, ?_, by simp [halive], rfl, rfl⟩
    rw [hadds.latest_iff_eq hrow (by simp [HistoryRow.Counts, halive])]

include hreg hb hd in
theorem described_stored : (scan.stored db).Described := by
  constructor
  · intro path c hc
    by_cases hp : scan.Visits path
    · obtain ⟨ev, hev, rfl⟩ := List.mem_map.mp hp
      rw [find_current_stored_of_mem hreg.distinct hev] at hc
      obtain rfl := Option.some.inj hc
      exact described_of_mem hreg hb hd hev
    · rw [find_current_stored_of_notMem hp, Option.filter_eq_some_iff] at hc
      obtain ⟨r, hr, hdesc⟩ := hd.present path c hc.1
      refine ⟨r, ?_, hdesc⟩
      rw [Database.LatestRow, indexHistory_stored, (adds_marked hb path).latest_iff]
      · exact hr
      · -- a row that the scan adds is `Canceled`, since `c` is still there
        intro v hv
        rw [find_history_marked_of_left hreg hb hp hc.1] at hv
        split_ifs at hv with hs
        obtain rfl := Option.some.inj hv
        have hcancel : scan.canceled = true := by simpa [hs] using hc.2
        have hinfo : scan.deleteTask.canceled = true := hcancel
        simp [HistoryRow.Counts, DeleteTask.mark, hinfo]
  · intro path hc r hr
    have hp : ¬scan.Visits path := by
      intro hp
      obtain ⟨ev, hev, rfl⟩ := List.mem_map.mp hp
      rw [find_current_stored_of_mem hreg.distinct hev] at hc
      cases hc
    rw [find_current_stored_of_notMem hp] at hc
    rw [Database.LatestRow, indexHistory_stored] at hr
    cases ho : db.indexCurrent.find path with
    | none =>
      rw [(adds_marked hb path).latest_iff] at hr
      · exact hd.absent path ho r hr
      · intro v hv
        rw [find_history_marked_of_notMem (Fresh.of_before hb) hreg.distinct hp, ho] at hv
        cases hv
    | some old =>
      -- the scan has deleted the path
      obtain ⟨hcancel, hs⟩ : scan.canceled = false ∧ scan.deleteTask.stale path old = true := by
        simpa [ho, Option.filter_eq_none_iff] using hc
      have hrow := find_history_marked_of_left hreg hb hp ho
      rw [if_pos hs] at hrow
      have hmark : (scan.deleteTask.mark old).state = .deleted := by
        have hinfo : scan.deleteTask.canceled = false := hcancel
        simp [DeleteTask.mark, hinfo]
      rw [(adds_marked hb path).latest_iff_eq hrow (by simp [HistoryRow.Counts, hmark])] at hr
      rw [hr, hmark]

include hreg hb hd in
theorem diffFrom_stored : scan.DiffFrom db (scan.stored db) := by
  have hf := Fresh.of_before hb
  -- what the diff finds for a path that was there
  have hprev : ∀ path old, db.indexCurrent.find path = some old →
      ∃ r, prevRow (scan.marked db).indexHistory path (int64 scan.id) = some r ∧
        r.state ≠ .deleted ∧ r.msize = old.msize := by
    intro path old ho
    obtain ⟨r, hr, hs, -, hz⟩ := hd.present path old ho
    exact ⟨r, (prevRow_marked hb).mpr hr, hs, hz⟩
  constructor
  · intro ev hev ho
    have hrow := find_history_marked_of_mem hf hreg.distinct hev
    rw [if_neg fun h => by simpa [ho] using (eq_fingerprint_iff hreg hev).mp h] at hrow
    rw [find_scanDiff_of_history hb, hrow]
    have hstate : diffState ev.row.state
        (prevRow (scan.marked db).indexHistory ev.path (int64 scan.id)) = .new := by
      rw [state_of_mem hreg hev]
      apply diffState_alive_of_gone
      intro r hr
      exact hd.absent ev.path ho r ((prevRow_marked hb).mp hr)
    rw [Option.map_some, diffRow, hstate]
    exact ⟨_, rfl⟩
  · intro ev hev old ho hc
    have hrow := find_history_marked_of_mem hf hreg.distinct hev
    rw [if_neg fun h => by simpa [ho, hc] using (eq_fingerprint_iff hreg hev).mp h] at hrow
    obtain ⟨r, hr, hs, hz⟩ := hprev ev.path old ho
    rw [find_scanDiff_of_history hb, hrow, Option.map_some, hr]
    simp [diffRow, diffState, state_of_mem hreg hev, hs, hz]
  · intro path old ho hp hbelow
    obtain ⟨r, hr, -, hz⟩ := hprev path old ho
    rw [find_scanDiff_of_history hb, find_history_marked_of_left hreg hb hp ho,
      if_pos ((stale_iff hreg hb ho).mpr hbelow), Option.map_some, hr]
    have hinfo : scan.deleteTask.canceled = scan.canceled := rfl
    cases hc : scan.canceled <;> simp [diffRow, diffState, DeleteTask.mark, hinfo, hc, hz]
  · intro path hs
    rw [find_scanDiff_of_history hb, Option.isSome_map] at hs
    by_cases hp : scan.Visits path
    · left
      obtain ⟨ev, hev, rfl⟩ := List.mem_map.mp hp
      refine ⟨ev, hev, rfl, ?_⟩
      intro old ho
      by_contra hc
      rw [find_history_marked_of_mem hf hreg.distinct hev,
        if_pos ((eq_fingerprint_iff hreg hev).mpr ⟨old, ho, hc⟩)] at hs
      cases hs
    · right
      cases ho : db.indexCurrent.find path with
      | none =>
        rw [find_history_marked_of_notMem hf hreg.distinct hp, ho] at hs
        cases hs
      | some old =>
        rw [find_history_marked_of_left hreg hb hp ho] at hs
        split_ifs at hs with hstale
        · exact ⟨hp, (stale_iff hreg hb ho).mp hstale, rfl⟩
        · cases hs

end Step

section Run

variable {scans : List ScanRun}

/-- The tables after some scans that start from empty tables. -/
def after (scans : List ScanRun) : Database := scans.foldl (fun db scan => scan.stored db) .empty

theorem after_concat : after (scans ++ [scan]) = scan.stored (after scans) := by
  rw [after, List.foldl_append]
  rfl

/-- Every scan keeps the latest rows in line with the index, and adds rows under its id only. -/
theorem described_after (hids : (scans.map fun s => int64 s.id).Pairwise (· < ·))
    (hreg : ∀ s ∈ scans, s.Regular) : (after scans).Described ∧
      ∀ i, (∀ s ∈ scans, int64 s.id < i) → (after scans).Before i := by
  induction scans using List.reverseRecOn with
  | nil => exact ⟨Database.described_empty, fun i _ => Database.before_empty i⟩
  | append_singleton scans scan ih =>
    rw [List.map_append, List.pairwise_append] at hids
    obtain ⟨hd, hb⟩ := ih hids.1 fun s hs => hreg s (List.mem_append_left _ hs)
    have hlt : ∀ s ∈ scans, int64 s.id < int64 scan.id := by
      intro s hs
      exact hids.2.2 _ (List.mem_map_of_mem hs) _ (by simp)
    have hlast : scan ∈ scans ++ [scan] := List.mem_append_right _ (List.mem_singleton_self scan)
    rw [after_concat]
    constructor
    · exact described_stored (hreg scan hlast) (hb _ hlt) hd
    · intro i hi
      exact before_stored (hreg scan hlast) (hb _ hlt) (hi scan hlast)

theorem nodup_ids (hids : (scans.map fun s => int64 s.id).Pairwise (· < ·)) :
    (scans.map id).Nodup := by
  rw [List.pairwise_map] at hids
  rw [List.Nodup, List.pairwise_map]
  apply hids.imp
  intro a b hab heq
  rw [heq] at hab
  exact lt_irrefl _ hab

/-- After each scan of a sequence the history describes the index, and the diff of the scan is its
difference to the index before. -/
theorem diff_of_history (batchSize : ℕ)
    (hids : ((scans ++ [scan]).map fun s => int64 s.id).Pairwise (· < ·))
    (hreg : ∀ s ∈ scans ++ [scan], s.Regular) (ht : t.batchCount = 0)
    (hrows : ∀ s ∈ scans ++ [scan], t.pendingScanRows.lookup s.id = some s.row) :
    ∃ t₁ t₂ db₁ db₂,
      (ResultThread.writeResultToDb batchSize (scans.flatMap popped) t).run
        (.flawless (.closed .empty)) = .ok t₁ (.flawless (.closed db₁)) ∧
      (ResultThread.writeResultToDb batchSize ((scans ++ [scan]).flatMap popped) t).run
        (.flawless (.closed .empty)) = .ok t₂ (.flawless (.closed db₂)) ∧
      db₂.Described ∧ scan.DiffFrom db₁ db₂ := by
  have hids' := hids
  have hnodup := nodup_ids hids
  rw [List.map_append, List.pairwise_append] at hids'
  have hreg' : ∀ s ∈ scans, s.Regular := fun s hs => hreg s (List.mem_append_left _ hs)
  have hlast : scan ∈ scans ++ [scan] := List.mem_append_right _ (List.mem_singleton_self scan)
  have hlt : ∀ s ∈ scans, int64 s.id < int64 scan.id := by
    intro s hs
    exact hids'.2.2 _ (List.mem_map_of_mem hs) _ (by simp)
  obtain ⟨t₁, h₁⟩ := run_scans scans .empty batchSize (nodup_ids hids'.1) ht
    fun s hs => hrows s (List.mem_append_left _ hs)
  obtain ⟨t₂, h₂⟩ := run_scans (scans ++ [scan]) .empty batchSize hnodup ht hrows
  obtain ⟨hd, hb⟩ := described_after hids'.1 hreg'
  refine ⟨t₁, t₂, after scans, after (scans ++ [scan]), h₁, h₂, ?_, ?_⟩
  · exact (described_after hids hreg).1
  · rw [after_concat]
    exact diffFrom_stored (hreg scan hlast) (hb _ hlt) hd

end Run

/-! Two scans of a file that has changed in between. -/

theorem regular_fileScan {id : ScanId} {modtime : ℤ} (hid : id < 2 ^ 64) :
    (fileScan id ['/', 'a'] modtime hid).Regular := by
  constructor
  · exact List.nodup_singleton _
  · simp [fileScan, fileEvent, ErrorCode.ok]
  · simp [fileScan, fileEvent]
  · simp [root, fileScan, ScanTaskRow.withRoot, Glob.IsMeta]

def firstScan : ScanRun := fileScan 1 ['/', 'a'] 1 (by decide)

def secondScan : ScanRun := fileScan 2 ['/', 'a'] 2 (by decide)

theorem diff_of_history_two : ∃ t₁ t₂ db₁ db₂,
    (ResultThread.writeResultToDb 1 ([firstScan].flatMap popped)
      (twoRows firstScan secondScan)).run (.flawless (.closed .empty)) =
        .ok t₁ (.flawless (.closed db₁)) ∧
    (ResultThread.writeResultToDb 1 (([firstScan] ++ [secondScan]).flatMap popped)
      (twoRows firstScan secondScan)).run (.flawless (.closed .empty)) =
        .ok t₂ (.flawless (.closed db₂)) ∧
    db₂.Described ∧ secondScan.DiffFrom db₁ db₂ := by
  have hids : (([firstScan] ++ [secondScan]).map fun s => int64 s.id).Pairwise (· < ·) := by
    have hlt : int64 ((1 : ℕ) : ℤ) < int64 ((2 : ℕ) : ℤ) := by
      rw [int64_eq_self (by decide), int64_eq_self (by decide)]
      decide
    exact List.pairwise_pair.mpr hlt
  refine diff_of_history 1 hids ?_ rfl (lookup_twoRows (by decide))
  intro s hs
  rcases List.mem_cons.mp hs with rfl | hs
  · exact regular_fileScan _
  · rw [List.mem_singleton.mp hs]
    exact regular_fileScan _

def lastSigned : ScanRun := fileScan (2 ^ 63 - 1) ['/', 'a'] 1 (by decide)

/-- Its id is stored as −2^63. -/
def firstWrapped : ScanRun := fileScan (2 ^ 63) ['/', 'a'] 2 (by decide)

theorem wrapped_lt : int64 firstWrapped.id < int64 lastSigned.id := by
  have h₁ : int64 ((2 ^ 63 : ℕ) : ℤ) = -2 ^ 63 := by
    rw [int64]
    rfl
  have h₂ : int64 ((2 ^ 63 - 1 : ℕ) : ℤ) = (2 ^ 63 - 1 : ℕ) := int64_eq_self (by decide)
  have hlt : int64 ((2 ^ 63 : ℕ) : ℤ) < int64 ((2 ^ 63 - 1 : ℕ) : ℤ) := by
    rw [h₁, h₂]
    norm_num
  exact hlt

theorem find_current_lastSigned : (after [lastSigned]).indexCurrent.find ['/', 'a'] =
    some ⟨(fileEvent (2 ^ 63 - 1) ['/', 'a'] 1).row, int64 lastSigned.id⟩ := by
  have hdist : lastSigned.DistinctPaths := List.nodup_singleton _
  exact find_current_stored_of_mem hdist List.mem_cons_self

theorem find_history_lastSigned {j : ℤ} (h : j ≠ int64 lastSigned.id) :
    (after [lastSigned]).indexHistory.find (path, j) = none := by
  rw [after, List.foldl_cons, List.foldl_nil, indexHistory_stored, find_history_marked_of_ne h]
  rfl

theorem fresh_firstWrapped : firstWrapped.Fresh (after [lastSigned]) := by
  constructor
  · intro path
    exact find_history_lastSigned wrapped_lt.ne
  · intro path
    rw [after, List.foldl_cons, List.foldl_nil, find_scanDiff_stored_of_ne wrapped_lt.ne]
    rfl

/-- The id of the second scan is stored below the one of the first, so that the changed file is
called new. -/
theorem diff_of_wrapped : (after ([lastSigned] ++ [firstWrapped])).scanDiff.find
    (int64 firstWrapped.id, ['/', 'a']) = some ⟨.new, 0⟩ := by
  have hprev : prevRow (firstWrapped.marked (after [lastSigned])).indexHistory ['/', 'a']
      (int64 firstWrapped.id) = none := by
    apply prevRow_eq_none
    intro j hj
    obtain ⟨hlt, r, hr, -⟩ := mem_earlierIds.mp hj
    rw [find_history_marked_of_ne hlt.ne, find_history_lastSigned (hlt.trans wrapped_lt).ne] at hr
    cases hr
  have hprint :
      ((fileEvent (2 ^ 63) ['/', 'a'] 2).row.mtime, (fileEvent (2 ^ 63) ['/', 'a'] 2).row.msize) ≠
      (after [lastSigned]).fingerprint ['/', 'a'] := by
    rw [Database.fingerprint, find_current_lastSigned]
    intro h
    have h₂ : int64 ((2 : ℕ) : ℤ) = int64 ((1 : ℕ) : ℤ) := congrArg Prod.fst h
    exact absurd (int64_inj (by decide) (by decide) h₂) (by decide)
  have hrow : (firstWrapped.marked (after [lastSigned])).indexHistory.find
      (['/', 'a'], int64 firstWrapped.id) = some (fileEvent (2 ^ 63) ['/', 'a'] 2).row :=
    (find_history_marked_of_mem fresh_firstWrapped (List.nodup_singleton _)
      List.mem_cons_self).trans (if_neg hprint)
  rw [after_concat, find_scanDiff_stored, fresh_firstWrapped.diff, Option.none_or, hrow, hprev]
  rfl

/-- With the ids 2^63 − 1 and 2^63 the diff is not the difference to the index. -/
theorem diff_of_history_wrapped : lastSigned.id < firstWrapped.id ∧
    (∀ s ∈ [lastSigned] ++ [firstWrapped], s.Regular) ∧ ∃ t₁ t₂ db₁ db₂,
      (ResultThread.writeResultToDb 1 ([lastSigned].flatMap popped)
        (twoRows lastSigned firstWrapped)).run (.flawless (.closed .empty)) =
          .ok t₁ (.flawless (.closed db₁)) ∧
      (ResultThread.writeResultToDb 1 (([lastSigned] ++ [firstWrapped]).flatMap popped)
        (twoRows lastSigned firstWrapped)).run (.flawless (.closed .empty)) =
          .ok t₂ (.flawless (.closed db₂)) ∧
      ¬firstWrapped.DiffFrom db₁ db₂ := by
  have hne : lastSigned.id ≠ firstWrapped.id := by decide
  have hrows := lookup_twoRows hne
  obtain ⟨t₁, h₁⟩ := run_scans [lastSigned] .empty 1
    (List.nodup_singleton _) rfl fun s hs => hrows s (List.mem_append_left _ hs)
  obtain ⟨t₂, h₂⟩ := run_scans ([lastSigned] ++ [firstWrapped]) .empty 1
    (by simpa using hne) rfl hrows
  refine ⟨by decide, ?_, t₁, t₂, after [lastSigned], after ([lastSigned] ++ [firstWrapped]), h₁, h₂,
    ?_⟩
  · intro s hs
    rcases List.mem_cons.mp hs with rfl | hs
    · exact regular_fileScan _
    · rw [List.mem_singleton.mp hs]
      exact regular_fileScan _
  · intro h
    have hchange : Changes (fileEvent (2 ^ 63) ['/', 'a'] 2)
        ⟨(fileEvent (2 ^ 63 - 1) ['/', 'a'] 1).row, int64 lastSigned.id⟩ := by
      left
      intro h₁
      have h₂ : int64 ((2 : ℕ) : ℤ) = int64 ((1 : ℕ) : ℤ) := h₁
      exact absurd (int64_inj (by decide) (by decide) h₂) (by decide)
    have hdiff := h.changed _ List.mem_cons_self _ find_current_lastSigned hchange
    exact absurd (diff_of_wrapped.symm.trans hdiff) (by simp)

end ScanRun

end ScanDaemon
