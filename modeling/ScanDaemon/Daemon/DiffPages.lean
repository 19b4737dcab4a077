import ScanDaemon.Daemon.Responses
import ScanDaemon.Database.Statements
import ScanDaemon.Export.ScanRun
import ScanDaemon.Library.Grouping

/-! # The pages of a diff

`get_scan_diff_detail` joins the diff of a scan with its history, and
`get_scan_diff_count` counts the diff alone. A row of the diff has exactly one
history row of the same path and scan, so that the pages show what is counted.
-/

namespace ScanDaemon

open Relational

namespace HttpServer

/-- `state_filter` -/
def stateFilter (state : String) : ℤ :=
  if state = "NEW" then 0
  else if state = "ERROR" then 1
  else if state = "DELETED" then 2
  else if state = "CANCELED" then 3
  else if state = "CHANGED" then 4
  else -1

/-- `(page - 1) * limit` in an `int`. -/
def pageOffset (page limit : ℤ) : ℤ := int32 ((page - 1) * limit)

end HttpServer

/-- The count that belongs to a filter; without a filter it is the sum of the five. -/
def DiffCounts.matching (counts : DiffCounts) (filter : ℤ) : ℤ :=
  if filter = 0 then counts.newCnt
  else if filter = 1 then counts.errCnt
  else if filter = 2 then counts.deletedCnt
  else if filter = 3 then counts.canceledCnt
  else if filter = 4 then counts.changedCnt
  else counts.newCnt + counts.errCnt + counts.deletedCnt + counts.canceledCnt + counts.changedCnt

namespace ScanDiff

open HttpServer

/-- `LIMIT ? OFFSET ?` -/
def limited {α : Type} (limit offset : ℤ) (l : List α) : List α :=
  if limit < 0 then l.drop offset.toNat else (l.drop offset.toNat).take limit.toNat

/-- `?2 = -1 OR d.diff_state = ?2` -/
def shows (filter : ℤ) (d : DiffRow) : Bool := filter = -1 || stateCode d.diffState = filter

/-- The pairs of rows that `stmt_get_detail_` joins. -/
def detailKeys (db : Database) (id : ScanId) (filter : ℤ) : Finset ((ℤ × Path) × (Path × ℤ)) :=
  ((db.scanDiff.select fun k d => k.1 = int64 id && shows filter d) ×ˢ db.indexHistory.keys).filter
    fun k => k.1.2 = k.2.1 ∧ k.1.1 = k.2.2

/-- The order of the rows, which is the same for every page. -/
structure StableOrder (db : Database) (id : ScanId) (filter : ℤ)
    (order : List ((ℤ × Path) × (Path × ℤ))) : Prop where
  nodup : order.Nodup
  mem : ∀ k, k ∈ order ↔ k ∈ detailKeys db id filter

/-- What the callback is given for a pair of rows. -/
def detailRow (db : Database) (k : (ℤ × Path) × (Path × ℤ)) : Option (ScanRow × ℕ) := do
  let d ← db.scanDiff.find k.1
  let r ← db.indexHistory.find k.2
  return (⟨uint64 r.msize, k.2.1, d.diffState⟩, uint64 d.oldSize)

def getScanDiffDetail (db : Database) (order : List ((ℤ × Path) × (Path × ℤ)))
    (limit offset : ℤ) : List (ScanRow × ℕ) :=
  (limited limit offset order).filterMap (detailRow db)

/-- `COUNT(CASE WHEN diff_state = c THEN 1 END)` -/
def countState (db : Database) (id : ScanId) (c : ℤ) : ℤ :=
  int32 (db.scanDiff.count fun k d => k.1 = int64 id && stateCode d.diffState = c)

def getScanDiffCount (db : Database) (id : ScanId) : DiffCounts where
  newCnt := countState db id 0
  errCnt := countState db id 1
  deletedCnt := countState db id 2
  canceledCnt := countState db id 3
  changedCnt := countState db id 4

variable {α : Type} {l : List α} {db : Database} {id : ScanId} {filter : ℤ} {n m : ℕ}
  {k : (ℤ × Path) × (Path × ℤ)} {order : List ((ℤ × Path) × (Path × ℤ))} {path : Path}
  {row : ScanRow × ℕ} {d : DiffRow}

/-- The tables after any sequence of scans. -/
theorem built_stored (scans : List ScanRun) :
    (scans.foldl (fun db scan => scan.stored db) Database.empty).Built := by
  induction scans using List.reverseRecOn with
  | nil => exact .empty
  | append_singleton scans scan ih =>
    rw [List.foldl_concat, ScanRun.stored, Database.finalize]
    have hrecorded : ∀ evs : List FileEvent, ∀ db : Database, db.Built →
        (evs.foldl (fun db ev => db.upsert ev) db).Built := by
      intro evs
      induction evs with
      | nil => exact fun db h => h
      | cons ev evs ih => exact fun db h => ih _ h.upsert
    exact ((((hrecorded _ _ ih).upsertTask _).markDeleted).findScanDiff).upsertCount

/-! ## Pages -/

/-- The first pages of `m` rows are the first rows. -/
theorem flatMap_pages : ((List.range n).flatMap fun i => (l.drop (i * m)).take m) =
    l.take (n * m) := by
  induction n with
  | zero => simp
  | succ n ih =>
    rw [List.range_succ, List.flatMap_append, ih, List.flatMap_singleton, Nat.succ_mul,
      List.take_add]

/-- Without an overflow the pages are those of the list. -/
theorem limited_page {i : ℕ} (h : i * m < 2 ^ 31) :
    limited m (pageOffset (i + 1) m) l = (l.drop (i * m)).take m := by
  have hoffset : pageOffset (i + 1) m = (i * m : ℕ) := by
    rw [pageOffset, add_sub_cancel_right, ← Nat.cast_mul]
    exact int32_eq_self_iff.mpr h
  rw [limited, if_neg (by omega), hoffset, Int.toNat_natCast, Int.toNat_natCast]

/-! ## The join -/

theorem mem_detailKeys (h : db.Built) : k ∈ detailKeys db id filter ↔
    ∃ path d, k = ((int64 id, path), (path, int64 id)) ∧
      db.scanDiff.find (int64 id, path) = some d ∧ shows filter d = true := by
  obtain ⟨⟨i, p⟩, ⟨q, j⟩⟩ := k
  simp only [detailKeys, Finset.mem_filter, Finset.mem_product, Table.mem_select, Bool.and_eq_true,
    decide_eq_true_eq, Prod.mk.injEq]
  constructor
  · rintro ⟨⟨⟨d, hd, rfl, hs⟩, -⟩, rfl, rfl⟩
    exact ⟨p, d, ⟨⟨rfl, rfl⟩, rfl, rfl⟩, hd, hs⟩
  · rintro ⟨path, d, ⟨⟨rfl, rfl⟩, rfl, rfl⟩, hd, hs⟩
    refine ⟨⟨⟨d, hd, rfl, hs⟩, ?_⟩, rfl, rfl⟩
    rw [Table.mem_keys]
    exact h.diff_in_history (by rw [hd]; rfl)

theorem detailRow_eq (hd : db.scanDiff.find (int64 id, path) = some d) (h : db.Built) :
    ∃ size, detailRow db ((int64 id, path), (path, int64 id)) =
      some (⟨size, path, d.diffState⟩, uint64 d.oldSize) := by
  have hr : (db.indexHistory.find (path, int64 id)).isSome :=
    h.diff_in_history (by rw [hd]; rfl)
  obtain ⟨r, hr⟩ := Option.isSome_iff_exists.mp hr
  refine ⟨uint64 r.msize, ?_⟩
  rw [detailRow, hd, hr]
  rfl

/-- The rows that are delivered without a limit. -/
structure ShowsDiff (db : Database) (id : ScanId) (filter : ℤ) (rows : List (ScanRow × ℕ)) :
    Prop where
  nodup : (rows.map fun row => row.1.path).Nodup
  complete : ∀ path d, db.scanDiff.find (int64 id, path) = some d → shows filter d = true →
    ∃ size, (⟨size, path, d.diffState⟩, uint64 d.oldSize) ∈ rows
  sound : ∀ row ∈ rows, ∃ d, db.scanDiff.find (int64 id, row.1.path) = some d ∧
    shows filter d = true ∧ row.1.state = d.diffState ∧ row.2 = uint64 d.oldSize
  length_eq : rows.length = db.scanDiff.count fun k d => k.1 = int64 id && shows filter d

theorem StableOrder.path_eq (horder : StableOrder db id filter order) (h : db.Built)
    (hk : k ∈ order) : (detailRow db k).map (fun row => row.1.path) = some k.1.2 := by
  obtain ⟨path, d, rfl, hd, -⟩ := (mem_detailKeys h).mp ((horder.mem k).mp hk)
  obtain ⟨size, hrow⟩ := detailRow_eq hd h
  rw [hrow]
  rfl

theorem StableOrder.isSome (horder : StableOrder db id filter order) (h : db.Built)
    (hk : k ∈ order) : (detailRow db k).isSome := by
  have hp := horder.path_eq h hk
  rw [← Option.isSome_map (f := fun row : ScanRow × ℕ => row.1.path), hp]
  rfl

/-- Each row of the diff that the filter shows is joined exactly once. -/
theorem StableOrder.showsDiff (horder : StableOrder db id filter order) (h : db.Built) :
    ShowsDiff db id filter (order.filterMap (detailRow db)) := by
  have hpaths : (order.filterMap (detailRow db)).map (fun row => row.1.path) =
      order.map fun k => k.1.2 := by
    rw [List.map_filterMap, ← List.filterMap_eq_map]
    exact List.filterMap_congr fun k hk => horder.path_eq h hk
  have hinj : ∀ k ∈ order, ∀ k' ∈ order, k.1.2 = k'.1.2 → k = k' := by
    intro k hk k' hk' he
    obtain ⟨path, d, rfl, -⟩ := (mem_detailKeys h).mp ((horder.mem k).mp hk)
    obtain ⟨path', d', rfl, -⟩ := (mem_detailKeys h).mp ((horder.mem k').mp hk')
    obtain rfl : path = path' := he
    rfl
  have hnodup : (order.map fun k => k.1.2).Nodup := horder.nodup.map_on hinj
  refine ⟨by rwa [hpaths], fun path d hd hs => ?_, fun row hrow => ?_, ?_⟩
  · obtain ⟨size, hsize⟩ := detailRow_eq hd h
    have hk := (horder.mem _).mpr ((mem_detailKeys h).mpr ⟨path, d, rfl, hd, hs⟩)
    exact ⟨size, List.mem_filterMap.mpr ⟨_, hk, hsize⟩⟩
  · obtain ⟨k, hk, hrow⟩ := List.mem_filterMap.mp hrow
    obtain ⟨path, d, rfl, hd, hs⟩ := (mem_detailKeys h).mp ((horder.mem k).mp hk)
    obtain ⟨size, hsize⟩ := detailRow_eq hd h
    obtain rfl := Option.some.inj (hrow.symm.trans hsize)
    exact ⟨d, hd, hs, rfl, rfl⟩
  · -- the keys of the diff that are shown, each once
    have hkeys : (order.map fun k => k.1).toFinset =
        db.scanDiff.select fun k d => k.1 = int64 id && shows filter d := by
      ext key
      rw [List.mem_toFinset, List.mem_map, Table.mem_select]
      constructor
      · rintro ⟨k, hk, rfl⟩
        obtain ⟨path, d, rfl, hd, hs⟩ := (mem_detailKeys h).mp ((horder.mem k).mp hk)
        exact ⟨d, hd, by simp [hs]⟩
      · rintro ⟨d, hd, hs⟩
        obtain ⟨i, path⟩ := key
        rw [Bool.and_eq_true, decide_eq_true_eq] at hs
        obtain ⟨rfl, hs⟩ := hs
        exact ⟨_, (horder.mem _).mpr ((mem_detailKeys h).mpr ⟨path, d, rfl, hd, hs⟩), rfl⟩
    have hfirst : (order.map fun k => k.1).Nodup :=
      horder.nodup.map_on fun k hk k' hk' he => hinj k hk k' hk' (congrArg Prod.snd he)
    rw [Table.count, ← hkeys, List.toFinset_card_of_nodup hfirst, List.length_map]
    have hlen := congrArg List.length hpaths
    rwa [List.length_map, List.length_map] at hlen

/-! ## The counts -/

theorem countState_eq {c : ℤ} (hc : c ≠ -1)
    (h : (db.scanDiff.count fun k d => k.1 = int64 id && shows c d) < 2 ^ 31) :
    countState db id c = db.scanDiff.count fun k d => k.1 = int64 id && shows c d := by
  have hshows : ∀ d, shows c d = decide (stateCode d.diffState = c) := by
    intro d
    rw [shows, decide_eq_false hc, Bool.false_or]
  simp only [hshows] at h ⊢
  exact int32_eq_self_iff.mpr h

/-- Every row of the diff has one of the five states. -/
theorem sum_countState (h : (db.scanDiff.count fun k _ => k.1 = int64 id) < 2 ^ 31) :
    countState db id 0 + countState db id 1 + countState db id 2 + countState db id 3 +
      countState db id 4 = db.scanDiff.count fun k _ => k.1 = int64 id := by
  let group : ℤ × Path → DiffRow → Option ℤ := fun k d =>
    if k.1 = int64 id then some (stateCode d.diffState) else none
  have hsome : ∀ k d, (group k d).isSome = decide (k.1 = int64 id) := by
    intro k d
    simp only [group]
    split_ifs with hk <;> simp [hk]
  have hcode : ∀ k d g, db.scanDiff.find k = some d → group k d = some g →
      g ∈ ({0, 1, 2, 3, 4} : Finset ℤ) := by
    intro k d g _ hg
    simp only [group] at hg
    split_ifs at hg
    rw [← Option.some.inj hg]
    cases d.diffState <;> decide
  have htotal := Table.sum_groupCount hcode
  simp only [hsome] at htotal
  have hle : ∀ c ∈ ({0, 1, 2, 3, 4} : Finset ℤ), db.scanDiff.groupCount group c < 2 ^ 31 := by
    intro c hc
    apply lt_of_le_of_lt _ h
    rw [← htotal]
    exact Finset.single_le_sum (fun _ _ => Nat.zero_le _) hc
  have hcount : ∀ c ∈ ({0, 1, 2, 3, 4} : Finset ℤ),
      countState db id c = db.scanDiff.groupCount group c := by
    intro c hc
    have hgroup : db.scanDiff.groupCount group c =
        db.scanDiff.count fun k d => k.1 = int64 id && stateCode d.diffState = c := by
      unfold Table.groupCount
      congr
      funext k d
      by_cases hk : k.1 = int64 id <;> simp [group, hk]
    rw [countState, ← hgroup]
    exact int32_eq_self_iff.mpr (hle c hc)
  rw [hcount 0 (by decide), hcount 1 (by decide), hcount 2 (by decide), hcount 3 (by decide),
    hcount 4 (by decide), ← htotal]
  simp [add_assoc]

theorem stateFilter_cases (state : String) :
    stateFilter state ∈ ({0, 1, 2, 3, 4} : Finset ℤ) ∨ stateFilter state = -1 := by
  unfold stateFilter
  split_ifs <;> simp

theorem matching_state {c : ℤ} (hc : c ∈ ({0, 1, 2, 3, 4} : Finset ℤ)) :
    (getScanDiffCount db id).matching c = countState db id c := by
  simp only [Finset.mem_insert, Finset.mem_singleton] at hc
  rcases hc with rfl | rfl | rfl | rfl | rfl <;> simp [DiffCounts.matching, getScanDiffCount]

theorem matching_all : (getScanDiffCount db id).matching (-1) = countState db id 0 +
    countState db id 1 + countState db id 2 + countState db id 3 + countState db id 4 := by
  simp [DiffCounts.matching, getScanDiffCount]

theorem matching_eq {state : String}
    (h : (db.scanDiff.count fun k d => k.1 = int64 id && shows (stateFilter state) d) < 2 ^ 31) :
    (getScanDiffCount db id).matching (stateFilter state) =
      db.scanDiff.count fun k d => k.1 = int64 id && shows (stateFilter state) d := by
  rcases stateFilter_cases state with hc | hall
  · rw [matching_state hc]
    apply countState_eq _ h
    rintro he
    rw [he] at hc
    exact absurd hc (by decide)
  · rw [hall] at h ⊢
    have hshows : ∀ d, shows (-1) d = true := fun _ => rfl
    simp only [hshows, Bool.and_true] at h ⊢
    rw [matching_all, sum_countState h]

/-- Read page after page until one is empty, a diff shows each of its rows with the state asked for
exactly once, and they are as many as are counted; without a filter they are as many as the five
counts together. -/
theorem scan_diff_pages (db : Database) (h : db.Built) (id : ScanId) (state : String)
    (order : List ((ℤ × Path) × (Path × ℤ)))
    (horder : StableOrder db id (stateFilter state) order) (limit pages : ℕ) (hlimit : 0 < limit)
    (hoffset : pages * limit < 2 ^ 31)
    (hend : getScanDiffDetail db order limit (pageOffset (pages + 1) limit) = []) :
    let rows := (List.range pages).flatMap fun i : ℕ =>
      getScanDiffDetail db order limit (pageOffset (i + 1) limit)
    ShowsDiff db id (stateFilter state) rows ∧
      rows.length = (getScanDiffCount db id).matching (stateFilter state) := by
  intro rows
  have hshort : order.length ≤ pages * limit := by
    rw [getScanDiffDetail, limited_page hoffset, List.filterMap_eq_nil_iff] at hend
    by_contra hlt
    have hdrop : (order.drop (pages * limit)).take limit ≠ [] := by
      rw [Ne, List.take_eq_nil_iff, List.drop_eq_nil_iff]
      omega
    obtain ⟨k, hk⟩ := List.exists_mem_of_ne_nil _ hdrop
    have hsome := horder.isSome h (List.mem_of_mem_drop (List.mem_of_mem_take hk))
    rw [hend k hk] at hsome
    cases hsome
  have hrows : rows = order.filterMap (detailRow db) := by
    have hpage : ∀ i ∈ List.range pages,
        getScanDiffDetail db order limit (pageOffset (i + 1) limit) =
          ((order.drop (i * limit)).take limit).filterMap (detailRow db) := by
      intro i hi
      have hlt : i * limit ≤ pages * limit := Nat.mul_le_mul_right _ (List.mem_range.mp hi).le
      rw [getScanDiffDetail, limited_page (by omega)]
    calc rows
        = (List.range pages).flatMap fun i =>
            ((order.drop (i * limit)).take limit).filterMap (detailRow db) :=
          List.flatMap_congr hpage
      _ = (order.take (pages * limit)).filterMap (detailRow db) := by
          rw [← List.filterMap_flatMap, flatMap_pages]
      _ = order.filterMap (detailRow db) := by rw [List.take_of_length_le hshort]
  have hshows := horder.showsDiff h
  rw [← hrows] at hshows
  refine ⟨hshows, ?_⟩
  have hlength : rows.length ≤ order.length := hrows ▸ List.length_filterMap_le _ _
  rw [hshows.length_eq, matching_eq]
  rw [← hshows.length_eq]
  omega

/-! ## A directory that becomes a file -/

/-- A scan of the directory `/a` and the file in it. -/
def directoryScan : ScanRun where
  row := ⟨1, 0, 0, ['/', 'a'], .done⟩
  events := [⟨1, 0, 0, .ok, ['/', 'a'], .dir, ⟨false, false⟩⟩,
    ⟨1, 0, 512, .ok, ['/', 'a', '/', 'b'], .file, ⟨false, false⟩⟩]
  fin := ⟨1, 0, 0, .ok, ['/', 'a'], .unknown, ⟨true, false⟩⟩
  sentinel := rfl
  plain := by simp
  sameScan := by simp
  rowScan := rfl
  idLt := by decide

/-- The directory and then the file that stands in its place. -/
def replacedScans : List ScanRun := [directoryScan, ScanRun.fileScan 3 ['/', 'a'] 1 (by decide)]

/-- The diff of the second scan has a changed row and a deleted one. -/
def replacedKeys : List ((ℤ × Path) × (Path × ℤ)) :=
  [['/', 'a'], ['/', 'a', '/', 'b']].map fun path =>
    ((int64 (3 : ScanId), path), (path, int64 (3 : ScanId)))

/-- Pages of one row show the changed row, then the deleted one, and no further row. -/
theorem scan_diff_two_pages :
    let db := replacedScans.foldl (fun db scan => scan.stored db) Database.empty
    let rows := (List.range 2).flatMap fun i : ℕ =>
      getScanDiffDetail db replacedKeys 1 (pageOffset (i + 1) 1)
    rows.map (fun row => row.1.state) = [.changed, .deleted] ∧
      ShowsDiff db 3 (stateFilter "ALL") rows ∧
      rows.length = (getScanDiffCount db 3).matching (stateFilter "ALL") := by
  intro db rows
  have hall : stateFilter "ALL" = -1 := by decide
  have hkeys : detailKeys db 3 (-1) = replacedKeys.toFinset := by decide +kernel
  have horder : StableOrder db 3 (stateFilter "ALL") replacedKeys := by
    rw [hall]
    refine ⟨by decide +kernel, fun k => ?_⟩
    rw [hkeys, List.mem_toFinset]
  have hend :
      getScanDiffDetail db replacedKeys (1 : ℕ) (pageOffset ((2 : ℕ) + 1) (1 : ℕ)) = [] := by
    decide +kernel
  exact ⟨by decide +kernel, scan_diff_pages db (built_stored _) 3 "ALL" replacedKeys horder 1 2
    (by decide) (by decide) hend⟩

end ScanDiff

end ScanDaemon
