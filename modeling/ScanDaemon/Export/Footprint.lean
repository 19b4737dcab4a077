import ScanDaemon.Export.ResultWriter
import ScanDaemon.Library.Locality

/-! # Where a scan reads and writes

The statements of a scan read whole tables, with conditions on the scan's id and
on its pattern. When no row that meets them lies elsewhere, each statement is
local to the paths of the scan and to the rows under its id.
-/

namespace ScanDaemon

open Relational Locality

/-- The keys of the four tables. -/
inductive RowKey
  | history (k : Path × ℤ)
  | current (path : Path)
  | task (id : ℤ)
  | diff (k : ℤ × Path)

def RowKey.Row : RowKey → Type
  | history _ => Option HistoryRow
  | current _ => Option CurrentRow
  | task _ => Option TaskRow
  | diff _ => Option DiffRow

def Database.read (db : Database) : ∀ k : RowKey, k.Row
  | .history k => db.indexHistory.find k
  | .current path => db.indexCurrent.find path
  | .task id => db.scanTask.find id
  | .diff k => db.scanDiff.find k

theorem Database.ext_read {db db' : Database} (h : db.read = db'.read) : db = db' :=
  Database.ext (fun k => congrFun h (.history k)) (fun k => congrFun h (.current k))
    (fun k => congrFun h (.task k)) fun k => congrFun h (.diff k)

/-- The stored id of a scan, its pattern, and its paths: those it visits and those it may mark. -/
structure Footprint where
  id : ℤ
  pattern : Path
  paths : Set Path

namespace Footprint

def region (F : Footprint) : Set RowKey := fun k =>
  match k with
  | .history (path, _) => path ∈ F.paths
  | .current path => path ∈ F.paths
  | .task i => i = F.id
  | .diff (i, _) => i = F.id

/-- The rows that the statements of the scan select lie at its paths. -/
structure Confines (F : Footprint) (db : Database) : Prop where
  matched : ∀ path c, db.indexCurrent.find path = some c → glob F.pattern path = true →
    path ∈ F.paths
  counted : ∀ path c, db.indexCurrent.find path = some c → c.scanId = F.id → path ∈ F.paths
  logged : ∀ path, (db.indexHistory.find (path, F.id)).isSome → path ∈ F.paths

/-- An event of the scan, or one of another scan elsewhere. -/
def Admits (F : Footprint) (ev : FileEvent) : Prop :=
  ev.path ∈ F.paths ∨ glob F.pattern ev.path = false ∧ int64 ev.scanId ≠ F.id

/-- The marking of the scan, or one under another id. -/
def Marks (F : Footprint) (info : DeleteTask) : Prop :=
  int64 info.scanId = F.id → info.submitRoot ++ ['/', '*'] = F.pattern

variable {F G : Footprint} {db db' : Database} {ev : FileEvent} {info : DeleteTask}
  {row : ScanTaskRow} {id : ScanId} {path : Path}

/-! ## What keeps the rows at their paths -/

theorem confines_upsert (ha : F.Admits ev) (h : F.Confines db) : F.Confines (db.upsert ev) := by
  constructor
  · intro path c hc hg
    rw [Database.find_current_upsert] at hc
    split_ifs at hc with hp
    · subst hp
      exact ha.resolve_right fun hn => by simp [hg] at hn
    · exact h.matched path c hc hg
  · intro path c hc hid
    rw [Database.find_current_upsert] at hc
    split_ifs at hc with hp
    · subst hp
      obtain rfl := Option.some.inj hc
      exact ha.resolve_right fun hn => hn.2 hid
    · exact h.counted path c hc hid
  · intro path hs
    by_cases hk : (path, F.id) = (ev.path, int64 ev.scanId)
    · obtain ⟨rfl, hid⟩ := Prod.mk.inj hk
      exact ha.resolve_right fun hn => hn.2 hid.symm
    · rw [Database.find_history_upsert_of_ne hk] at hs
      exact h.logged path hs

theorem confines_upsertTask (h : F.Confines db) : F.Confines (db.upsertTask row) :=
  ⟨h.matched, h.counted, h.logged⟩

theorem confines_markDeletedHistory (hm : F.Marks info) (h : F.Confines db) :
    F.Confines (db.markDeletedHistory info) := by
  constructor
  · exact h.matched
  · exact h.counted
  · intro path hs
    rw [Database.markDeletedHistory, Table.insertAll] at hs
    split_ifs at hs
    · rw [Table.find_insertEach, Option.isSome_or, Bool.or_eq_true] at hs
      rcases hs with hs | hs
      · exact h.logged path hs
      · by_cases hid : F.id = int64 info.scanId
        · rw [hid, Database.find_marks, Option.isSome_map] at hs
          obtain ⟨c, hc⟩ := Option.isSome_iff_exists.mp hs
          obtain ⟨hc, hstale⟩ := Option.filter_eq_some_iff.mp hc
          rw [DeleteTask.stale, Bool.and_eq_true, hm hid.symm] at hstale
          exact h.matched path c hc hstale.1
        · rw [Database.find_marks_of_ne hid] at hs
          cases hs
    · exact h.logged path hs

theorem confines_deleteCurrent (h : F.Confines db) : F.Confines (db.deleteCurrent info) := by
  have hfind : ∀ path c, (db.deleteCurrent info).indexCurrent.find path = some c →
      db.indexCurrent.find path = some c := by
    intro path c hc
    rw [Database.deleteCurrent, Table.find_delete, Option.filter_eq_some_iff] at hc
    exact hc.1
  constructor
  · intro path c hc
    exact h.matched path c (hfind path c hc)
  · intro path c hc
    exact h.counted path c (hfind path c hc)
  · exact h.logged

theorem confines_findScanDiff (h : F.Confines db) : F.Confines (db.findScanDiff id) :=
  ⟨h.matched, h.counted, h.logged⟩

theorem confines_upsertCount (h : F.Confines db) : F.Confines (db.upsertCount id) :=
  ⟨h.matched, h.counted, h.logged⟩

/-! ## What the statements of the scan read and write -/

theorem agree_current (h : AgreeOn Database.read F.region db db') (hp : path ∈ F.paths) :
    db.indexCurrent.find path = db'.indexCurrent.find path := h (.current path) hp

theorem agree_history (h : AgreeOn Database.read F.region db db') (hp : path ∈ F.paths) (i : ℤ) :
    db.indexHistory.find (path, i) = db'.indexHistory.find (path, i) := h (.history (path, i)) hp

theorem agree_task (h : AgreeOn Database.read F.region db db') :
    db.scanTask.find F.id = db'.scanTask.find F.id := h (.task F.id) rfl

theorem agree_diff (h : AgreeOn Database.read F.region db db') (path : Path) :
    db.scanDiff.find (F.id, path) = db'.scanDiff.find (F.id, path) := h (.diff (F.id, path)) rfl

/-- Every scan finds its rows at its paths. -/
def Confined (Fs : Set Footprint) (db : Database) : Prop := ∀ F ∈ Fs, F.Confines db

variable {Fs : Set Footprint}

theorem local_upsert (hadm : ∀ G ∈ Fs, G.Admits ev) (hp : ev.path ∈ F.paths) :
    Local Database.read (Confined Fs) F.region fun db => db.upsert ev := by
  constructor
  · intro db hdb G hG
    exact confines_upsert (hadm G hG) (hdb G hG)
  · intro db _ k hk
    cases k with
    | history k =>
      apply Database.find_history_upsert_of_ne
      rintro rfl
      exact hk hp
    | current path =>
      apply (Database.find_current_upsert).trans (if_neg _)
      rintro rfl
      exact hk hp
    | task i => exact congrArg (fun t => t.find i) Database.scanTask_upsert
    | diff k => exact congrArg (fun t => t.find k) Database.scanDiff_upsert
  · intro db db' _ _ h k hk
    cases k with
    | history k =>
      change (db.upsert ev).indexHistory.find k = (db'.upsert ev).indexHistory.find k
      by_cases hkey : k = (ev.path, int64 ev.scanId)
      · rw [hkey, Database.find_history_upsert, Database.find_history_upsert,
          agree_history h hp, Database.fingerprint_congr (agree_current h hp)]
      · rw [Database.find_history_upsert_of_ne hkey, Database.find_history_upsert_of_ne hkey]
        exact h (.history k) hk
    | current path =>
      change (db.upsert ev).indexCurrent.find path = (db'.upsert ev).indexCurrent.find path
      rw [Database.find_current_upsert, Database.find_current_upsert, agree_current h hk]
    | task i =>
      change (db.upsert ev).scanTask.find i = (db'.upsert ev).scanTask.find i
      rw [Database.scanTask_upsert, Database.scanTask_upsert]
      exact h (.task i) hk
    | diff k =>
      change (db.upsert ev).scanDiff.find k = (db'.upsert ev).scanDiff.find k
      rw [Database.scanDiff_upsert, Database.scanDiff_upsert]
      exact h (.diff k) hk

theorem local_upsertTask (hid : int64 row.scanId = F.id) :
    Local Database.read (Confined Fs) F.region fun db => db.upsertTask row := by
  constructor
  · intro db hdb G hG
    exact confines_upsertTask (hdb G hG)
  · intro db _ k hk
    cases k with
    | task i =>
      apply Database.find_upsertTask_of_ne
      rintro rfl
      exact hk hid
    | history _ | current _ | diff _ => rfl
  · intro db db' _ _ h k hk
    cases k with
    | task i =>
      change (db.upsertTask row).scanTask.find i = (db'.upsertTask row).scanTask.find i
      obtain rfl : i = F.id := hk
      rw [Database.upsertTask, Database.upsertTask, Table.find_insertRow, Table.find_insertRow, hid,
        agree_task h]
    | history k => exact h (.history k) hk
    | current path => exact h (.current path) hk
    | diff k => exact h (.diff k) hk

/-- Two databases that agree at the paths mark the same rows. -/
theorem marks_congr (hpat : info.submitRoot ++ ['/', '*'] = F.pattern) (hdb : F.Confines db)
    (hdb' : F.Confines db') (h : AgreeOn Database.read F.region db db') :
    info.marks db.indexCurrent = info.marks db'.indexCurrent := by
  have hstale : ∀ {d d' : Database}, F.Confines d → AgreeOn Database.read F.region d d' →
      ∀ path c, d.indexCurrent.find path = some c → info.stale path c = true →
        d'.indexCurrent.find path = some c := by
    intro d d' hd hdd path c hc hs
    rw [DeleteTask.stale, Bool.and_eq_true, hpat] at hs
    rw [← hc]
    exact (agree_current hdd (hd.matched path c hc hs.1)).symm
  apply Table.ext
  rintro ⟨path, i⟩
  by_cases hi : i = int64 info.scanId
  · rw [hi, Database.find_marks, Database.find_marks]
    congr 1
    ext c
    rw [Option.filter_eq_some_iff, Option.filter_eq_some_iff]
    constructor
    · rintro ⟨hc, hs⟩
      exact ⟨hstale hdb h path c hc hs, hs⟩
    · rintro ⟨hc, hs⟩
      exact ⟨hstale hdb' h.symm path c hc hs, hs⟩
  · rw [Database.find_marks_of_ne hi, Database.find_marks_of_ne hi]

theorem mem_paths_of_marks (hpat : info.submitRoot ++ ['/', '*'] = F.pattern) (hdb : F.Confines db)
    {k : Path × ℤ} (hk : ((info.marks db.indexCurrent).find k).isSome) : k.1 ∈ F.paths := by
  obtain ⟨path, i⟩ := k
  by_cases hi : i = int64 info.scanId
  · rw [hi, Database.find_marks, Option.isSome_map] at hk
    obtain ⟨c, hc⟩ := Option.isSome_iff_exists.mp hk
    obtain ⟨hc, hs⟩ := Option.filter_eq_some_iff.mp hc
    rw [DeleteTask.stale, Bool.and_eq_true, hpat] at hs
    exact hdb.matched path c hc hs.1
  · rw [Database.find_marks_of_ne hi] at hk
    cases hk

theorem local_markDeletedHistory (hF : F ∈ Fs) (hm : ∀ G ∈ Fs, G.Marks info)
    (hpat : info.submitRoot ++ ['/', '*'] = F.pattern) :
    Local Database.read (Confined Fs) F.region fun db => db.markDeletedHistory info := by
  constructor
  · intro db hdb G hG
    exact confines_markDeletedHistory (hm G hG) (hdb G hG)
  · intro db hdb k hk
    cases k with
    | history k =>
      change (Table.insertAll _ _).find k = db.indexHistory.find k
      rw [Table.insertAll]
      split_ifs
      · have hnone : (info.marks db.indexCurrent).find k = none := by
          rw [← Option.not_isSome_iff_eq_none]
          intro hs
          exact hk (mem_paths_of_marks hpat (hdb F hF) hs)
        rw [Table.find_insertEach, hnone, Option.or_none]
      · rfl
    | current _ | task _ | diff _ => rfl
  · intro db db' hdb hdb' h k hk
    cases k with
    | history k =>
      change (Table.insertAll _ _).find k = (Table.insertAll _ _).find k
      have hmarks := marks_congr hpat (hdb F hF) (hdb' F hF) h
      -- the statement fails in both or in none
      have hfree : Disjoint db.indexHistory.keys (info.marks db.indexCurrent).keys ↔
          Disjoint db'.indexHistory.keys (info.marks db'.indexCurrent).keys := by
        rw [hmarks, Finset.disjoint_right, Finset.disjoint_right]
        apply forall₂_congr
        intro j hj
        rw [← hmarks, Table.mem_keys] at hj
        have hkey := h (.history j) (mem_paths_of_marks hpat (hdb F hF) hj)
        rw [Table.mem_keys, Table.mem_keys]
        exact not_congr (by rw [show db.indexHistory.find j = db'.indexHistory.find j from hkey])
      have hkey : db.indexHistory.find k = db'.indexHistory.find k := h (.history k) hk
      rw [Table.insertAll, Table.insertAll]
      by_cases hd : Disjoint db.indexHistory.keys (info.marks db.indexCurrent).keys
      · rw [if_pos hd, if_pos (hfree.mp hd), Table.find_insertEach, Table.find_insertEach, hkey,
          hmarks]
      · rw [if_neg hd, if_neg fun hd' => hd (hfree.mpr hd'), hkey]
    | current path => exact h (.current path) hk
    | task i => exact h (.task i) hk
    | diff k => exact h (.diff k) hk

theorem local_deleteCurrent (hF : F ∈ Fs) (hpat : info.submitRoot ++ ['/', '*'] = F.pattern) :
    Local Database.read (Confined Fs) F.region fun db => db.deleteCurrent info := by
  constructor
  · intro db hdb G hG
    exact confines_deleteCurrent (hdb G hG)
  · intro db hdb k hk
    cases k with
    | current path =>
      change (db.indexCurrent.find path).filter _ = db.indexCurrent.find path
      have hkeep : ∀ c, db.indexCurrent.find path = some c → info.stale path c = false := by
        intro c hc
        rw [← Bool.not_eq_true]
        intro hs
        rw [DeleteTask.stale, Bool.and_eq_true, hpat] at hs
        exact hk ((hdb F hF).matched path c hc hs.1)
      cases hc : db.indexCurrent.find path with
      | none => rfl
      | some c => simp [hkeep c hc]
    | history _ | task _ | diff _ => rfl
  · intro db db' _ _ h k hk
    cases k with
    | current path =>
      change (db.indexCurrent.find path).filter _ = (db'.indexCurrent.find path).filter _
      rw [agree_current h hk]
    | history k => exact h (.history k) hk
    | task i => exact h (.task i) hk
    | diff k => exact h (.diff k) hk

theorem local_findScanDiff (hF : F ∈ Fs) (hid : int64 id = F.id) :
    Local Database.read (Confined Fs) F.region fun db => db.findScanDiff id := by
  constructor
  · intro db hdb G hG
    exact confines_findScanDiff (hdb G hG)
  · intro db _ k hk
    cases k with
    | diff k =>
      obtain ⟨i, path⟩ := k
      apply Database.find_scanDiff_findScanDiff_of_ne
      rintro rfl
      exact hk hid
    | history _ | current _ | task _ => rfl
  · intro db db' hdb hdb' h k hk
    cases k with
    | diff k =>
      obtain ⟨i, path⟩ := k
      change (db.findScanDiff id).scanDiff.find (i, path) =
        (db'.findScanDiff id).scanDiff.find (i, path)
      obtain rfl : i = int64 id := Eq.trans hk hid.symm
      rw [Database.find_scanDiff_findScanDiff, Database.find_scanDiff_findScanDiff, hid,
        agree_diff h]
      congr 1
      by_cases hp : path ∈ F.paths
      · rw [agree_history h hp, prevRow_congr fun j _ => agree_history h hp j]
      · -- the scan has no history row elsewhere
        have hnone : ∀ {d : Database}, F.Confines d → d.indexHistory.find (path, F.id) = none := by
          intro d hd
          rw [← Option.not_isSome_iff_eq_none]
          intro hs
          exact hp (hd.logged path hs)
        rw [hnone (hdb F hF), hnone (hdb' F hF)]
        rfl
    | history k => exact h (.history k) hk
    | current path => exact h (.current path) hk
    | task i => exact h (.task i) hk

/-- The counts of a scan are those of the rows at its paths. -/
theorem getCount_congr (hid : int64 id = F.id) (hdb : F.Confines db) (hdb' : F.Confines db')
    (h : AgreeOn Database.read F.region db db') : db.getCount id = db'.getCount id := by
  have hrows : ∀ path c, Database.ofScan id path c = true →
      (db.indexCurrent.find path = some c ↔ db'.indexCurrent.find path = some c) := by
    intro path c hs
    have hscan : c.scanId = F.id := (of_decide_eq_true hs).trans hid
    constructor
    · intro hc
      rw [← hc]
      exact (agree_current h (hdb.counted path c hc hscan)).symm
    · intro hc
      rw [← hc]
      exact agree_current h (hdb'.counted path c hc hscan)
  have hcount : ∀ t, db.countNodes id t = db'.countNodes id t := by
    intro t
    rw [Database.countNodes, Database.countNodes]
    congr 2
    apply Table.count_congr
    intro path c hs
    rw [Bool.and_eq_true] at hs
    exact hrows path c hs.1
  have hsum : db.totalSize id = db'.totalSize id := Table.sum_congr hrows
  rw [Database.getCount, Database.getCount, hsum, hcount, hcount, hcount]

theorem local_upsertCount (hF : F ∈ Fs) (hid : int64 id = F.id) :
    Local Database.read (Confined Fs) F.region fun db => db.upsertCount id := by
  constructor
  · intro db hdb G hG
    exact confines_upsertCount (hdb G hG)
  · intro db _ k hk
    cases k with
    | task i =>
      apply Database.find_upsertCount_of_ne
      rintro rfl
      exact hk hid
    | history _ | current _ | diff _ => rfl
  · intro db db' hdb hdb' h k hk
    cases k with
    | task i =>
      change (db.upsertCount id).scanTask.find i = (db'.upsertCount id).scanTask.find i
      obtain rfl : i = int64 id := Eq.trans hk hid.symm
      rw [Database.find_upsertCount, Database.find_upsertCount, hid, agree_task h,
        getCount_congr hid (hdb F hF) (hdb' F hF) h]
    | history k => exact h (.history k) hk
    | current path => exact h (.current path) hk
    | diff k => exact h (.diff k) hk

/-- A finalisation is local to its scan. -/
theorem local_finalize {event : FileEvent} (hF : F ∈ Fs)
    (hm : ∀ G ∈ Fs, G.Marks (event.deleteTask row))
    (hid : int64 event.scanId = F.id) (hrow : row.scanId = event.scanId)
    (hpat : row.submitRoot ++ ['/', '*'] = F.pattern) :
    Local Database.read (Confined Fs) F.region fun db => db.finalize row event := by
  have htask : Local Database.read (Confined Fs) F.region fun db => db.upsertTask row :=
    local_upsertTask (by rw [hrow, hid])
  have hmark : Local Database.read (Confined Fs) F.region
      fun db => db.markDeleted (event.deleteTask row) := by
    unfold Database.markDeleted
    split_ifs
    · exact local_markDeletedHistory hF hm hpat
    · exact (local_markDeletedHistory hF hm hpat).comp (local_deleteCurrent hF hpat)
  exact ((htask.comp hmark).comp (local_findScanDiff hF hid)).comp (local_upsertCount hF hid)

end Footprint

end ScanDaemon
