import ScanDaemon.Export.Interleaving

/-! # The counts of a scan

`upsert_count` counts the rows of `index_current` that carry the id of the scan.
While its events arrive among those of other scans, these rows are exactly the
ones of its events so far.
-/

namespace ScanDaemon

open Relational

/-- The rows under the stored id `i` are those of the events in `own`. -/
def RowsOf (i : ℤ) (own : List FileEvent) (db : Database) : Prop :=
  ∀ path c, (db.indexCurrent.find path = some c ∧ c.scanId = i) ↔
    ∃ ev ∈ own, ev.path = path ∧ c = ⟨ev.row, i⟩

namespace RowsOf

variable {i : ℤ} {own : List FileEvent} {db : Database} {ev : FileEvent} {info : DeleteTask}
  {id : ScanId}

theorem upsert_own (h : RowsOf i own db) (hid : int64 ev.scanId = i)
    (hnew : ev.path ∉ own.map FileEvent.path) : RowsOf i (own ++ [ev]) (db.upsert ev) := by
  intro path c
  rw [Database.find_current_upsert, hid]
  split_ifs with hp
  · subst hp
    constructor
    · rintro ⟨hc, -⟩
      exact ⟨ev, by simp, rfl, (Option.some.inj hc).symm⟩
    · rintro ⟨o, ho, hpath, rfl⟩
      rcases List.mem_append.mp ho with ho | ho
      · exact absurd (hpath ▸ List.mem_map_of_mem ho) hnew
      · rw [List.mem_singleton.mp ho]
        exact ⟨rfl, rfl⟩
  · rw [h path c]
    constructor
    · rintro ⟨o, ho, hpath, hc⟩
      exact ⟨o, List.mem_append_left _ ho, hpath, hc⟩
    · rintro ⟨o, ho, hpath, hc⟩
      rcases List.mem_append.mp ho with ho | ho
      · exact ⟨o, ho, hpath, hc⟩
      · rw [List.mem_singleton.mp ho] at hpath
        exact absurd hpath.symm hp

theorem upsert_other (h : RowsOf i own db) (hid : int64 ev.scanId ≠ i)
    (hne : ev.path ∉ own.map FileEvent.path) : RowsOf i own (db.upsert ev) := by
  intro path c
  rw [Database.find_current_upsert]
  split_ifs with hp
  · constructor
    · rintro ⟨hc, hs⟩
      obtain rfl := Option.some.inj hc
      exact absurd hs hid
    · rintro ⟨o, ho, hpath, -⟩
      exact absurd (hpath.trans hp ▸ List.mem_map_of_mem ho) hne
  · exact h path c

/-- A marking leaves the rows of its own scan and those that its pattern does not match. -/
theorem markDeleted (h : RowsOf i own db)
    (hm : int64 info.scanId = i ∨
      ∀ ev ∈ own, glob (info.submitRoot ++ ['/', '*']) ev.path = false) :
    RowsOf i own (db.markDeleted info) := by
  intro path c
  rw [Database.find_current_markDeleted, Option.filter_eq_some_iff, ← h path c]
  constructor
  · rintro ⟨⟨hc, -⟩, hs⟩
    exact ⟨hc, hs⟩
  · rintro ⟨hc, hs⟩
    refine ⟨⟨hc, ?_⟩, hs⟩
    have hfresh : info.stale path c = false := by
      rw [DeleteTask.stale]
      rcases hm with hid | hg
      · rw [hs, hid, bne_self_eq_false, Bool.and_false]
      · obtain ⟨ev, hev, rfl, -⟩ := (h path c).mp ⟨hc, hs⟩
        rw [hg ev hev, Bool.false_and]
    rw [hfresh, Bool.not_false, Bool.or_true]

theorem finalize {row : ScanTaskRow} {event : FileEvent} (h : RowsOf i own db)
    (hm : int64 event.scanId = i ∨
      ∀ ev ∈ own, glob (row.submitRoot ++ ['/', '*']) ev.path = false) :
    RowsOf i own (db.finalize row event) := by
  have htask : RowsOf i own (db.upsertTask row) := h
  exact htask.markDeleted hm

section Count

variable (h : RowsOf (int64 id) own db) (hdist : (own.map FileEvent.path).Nodup)

include h in
theorem select_eq (p : CurrentRow → Bool) :
    db.indexCurrent.select (fun path c => Database.ofScan id path c && p c) =
      ((own.filter fun ev => p ⟨ev.row, int64 id⟩).map FileEvent.path).toFinset := by
  ext path
  rw [Table.mem_select, List.mem_toFinset, List.mem_map]
  constructor
  · rintro ⟨c, hc, hs⟩
    rw [Bool.and_eq_true, Database.ofScan, decide_eq_true_eq] at hs
    obtain ⟨ev, hev, rfl, rfl⟩ := (h path c).mp ⟨hc, hs.1⟩
    exact ⟨ev, List.mem_filter.mpr ⟨hev, hs.2⟩, rfl⟩
  · rintro ⟨ev, hev, rfl⟩
    obtain ⟨hev, hp⟩ := List.mem_filter.mp hev
    obtain ⟨hc, hs⟩ := (h ev.path ⟨ev.row, int64 id⟩).mpr ⟨ev, hev, rfl, rfl⟩
    refine ⟨_, hc, ?_⟩
    rw [Bool.and_eq_true, Database.ofScan, decide_eq_true_eq]
    exact ⟨rfl, hp⟩

include h hdist in
/-- The nodes counted are the events of that type. -/
theorem countNodes_eq (hfew : own.length < 2 ^ 31) (t : NodeType) :
    db.countNodes id t = own.countP fun ev => ev.nodeType = t := by
  have hcard : db.indexCurrent.count (fun path c => Database.ofScan id path c && c.nodeType = t) =
      own.countP fun ev => ev.nodeType = t := by
    rw [Table.count, h.select_eq, List.toFinset_card_of_nodup, List.length_map,
      List.countP_eq_length_filter]
    · rfl
    · exact hdist.sublist (List.filter_sublist.map _)
  have hle : own.countP (fun ev => decide (ev.nodeType = t)) ≤ own.length := List.countP_le_length
  rw [Database.countNodes, hcard, int32, Int.bmod_eq_of_le_mul_two] <;> omega

include h hdist in
/-- The sizes summed up are those of the events. -/
theorem totalSize_eq (hsmall : (own.map FileEvent.size).sum < 2 ^ 63) :
    db.totalSize id = (own.map FileEvent.size).sum := by
  have hall := h.select_eq fun _ => true
  simp only [Bool.and_true, List.filter_true] at hall
  rw [Database.totalSize, Table.sum]
  have hselect :
      db.indexCurrent.select (Database.ofScan id) = (own.map FileEvent.path).toFinset := by
    rw [← hall]
  rw [hselect, List.sum_toFinset _ hdist, List.map_map, Nat.cast_list_sum, List.map_map]
  congr 1
  apply List.map_congr_left
  intro ev hev
  have hc := ((h ev.path ⟨ev.row, int64 id⟩).mpr ⟨ev, hev, rfl, rfl⟩).1
  have hle : ev.size ≤ (own.map FileEvent.size).sum := List.le_sum_of_mem (List.mem_map_of_mem hev)
  have hsize : ev.row.msize = ev.size := int64_eq_self (hle.trans_lt hsmall)
  rw [Function.comp_apply, Function.comp_apply, hc, Option.elim_some, hsize]

end Count

end RowsOf

namespace Database

variable {db : Database} {row : ScanTaskRow} {event : FileEvent} {i : ℤ}

theorem find_finalize_of_ne (hrow : row.scanId = event.scanId) (h : i ≠ int64 event.scanId) :
    (db.finalize row event).scanTask.find i = db.scanTask.find i := by
  rw [finalize, find_upsertCount_of_ne h, findScanDiff_scanTask, scanTask_markDeleted,
    find_upsertTask_of_ne (by rwa [hrow])]

/-- A finalisation counts the rows that its marking leaves. -/
theorem find_finalize_counts (hrow : row.scanId = event.scanId)
    (h : db.scanTask.find (int64 event.scanId) = none) :
    (db.finalize row event).scanTask.find (int64 event.scanId) = some (row.columns.withCounts
      (((db.markDeleted (event.deleteTask row)).getCount event.scanId).getD noCounts)) := by
  have htask : (db.upsertTask row).scanTask.find (int64 event.scanId) = some row.columns := by
    rw [← hrow] at h ⊢
    exact find_upsertTask h
  have hcur : ((db.upsertTask row).markDeleted (event.deleteTask row)).indexCurrent =
      (db.markDeleted (event.deleteTask row)).indexCurrent := by
    unfold markDeleted
    split <;> rfl
  have hcount : ∀ d d' : Database, d.indexCurrent = d'.indexCurrent →
      d.getCount event.scanId = d'.getCount event.scanId := by
    intro d d' hd
    rw [getCount, getCount, totalSize, totalSize, countNodes, countNodes, countNodes, countNodes,
      countNodes, countNodes, hd]
  rw [finalize, find_upsertCount, findScanDiff_scanTask, scanTask_markDeleted, htask,
    Option.map_some]
  rw [hcount _ _ ((findScanDiff_indexCurrent ..).trans hcur)]

end Database

namespace ScanRun

variable {scan a b : ScanRun} {scans : List ScanRun} {db : Database} {t : ResultThread}
  {ev : FileEvent} {l m own : List FileEvent} {rows : ScanMap ScanTaskRow}

/-- The nodes that the scan reports, by type, and the sum of their sizes. -/
def counts (scan : ScanRun) : ScanCounts where
  dirCount := scan.events.countP fun ev => ev.nodeType = .dir
  fileCount := scan.events.countP fun ev => ev.nodeType = .file
  linkCount := scan.events.countP fun ev => ev.nodeType = .link
  totalSize := (scan.events.map FileEvent.size).sum

/-- Scans under their own ids that neither visit nor match each other's paths. -/
structure Together (scans : List ScanRun) (db : Database) : Prop where
  ids : (scans.map id).Nodup
  unused : ∀ s ∈ scans, s.Unused db
  distinct : ∀ s ∈ scans, s.DistinctPaths
  visits : ∀ a ∈ scans, ∀ b ∈ scans, a.id ≠ b.id → ∀ path, a.Visits path → ¬b.Visits path
  unmatched : ∀ a ∈ scans, ∀ b ∈ scans, a.id ≠ b.id → ∀ path, b.Visits path →
    glob a.pattern path = false
  few : ∀ s ∈ scans, s.events.length < 2 ^ 31
  small : ∀ s ∈ scans, (s.events.map FileEvent.size).sum < 2 ^ 63

theorem Together.stored_ids (h : a.id ≠ b.id) : int64 a.id ≠ int64 b.id :=
  fun heq => h (int64_inj a.idLt b.idLt heq)

theorem store_plain (hev : ev ∈ scan.events) : db.store rows ev = db.upsert ev := by
  simp [Database.store, scan.plain ev hev]

theorem store_fin (hrow : rows.lookup scan.id = some scan.row) :
    db.store rows scan.fin = db.finalize (scan.row.withRoot scan.fin.path) scan.fin := by
  have hlook : rows.lookup scan.fin.scanId = some scan.row := hrow
  simp [Database.store, scan.sentinel, hlook]

theorem rowScan_withRoot : (scan.row.withRoot scan.fin.path).scanId = scan.fin.scanId := by
  rw [ScanTaskRow.withRoot_scanId]
  exact scan.rowScan

/-- What another scan stores leaves the rows of a scan alone. -/
theorem Together.store_other (h : Together scans db) (ha : a ∈ scans) (hb : b ∈ scans)
    (hne : a.id ≠ b.id) (hrow : rows.lookup b.id = some b.row) (hev : ev ∈ b.popped)
    (hown : ∀ o ∈ own, o ∈ a.events) {d : Database} (hrows : RowsOf (int64 a.id) own d) :
    RowsOf (int64 a.id) own (d.store rows ev) ∧
      (d.store rows ev).scanTask.find (int64 a.id) = d.scanTask.find (int64 a.id) := by
  have hids := stored_ids hne
  have hvisit : ∀ o ∈ own, a.Visits o.path := fun o ho => List.mem_map_of_mem (hown o ho)
  rcases List.mem_append.mp hev with hev | hev
  · rw [store_plain hev]
    constructor
    · apply hrows.upsert_other
      · rw [scanId_of_mem hev]
        exact hids.symm
      · intro hp
        obtain ⟨o, ho, hpath⟩ := List.mem_map.mp hp
        exact h.visits a ha b hb hne o.path (hvisit o ho) (hpath ▸ List.mem_map_of_mem hev)
    · rw [Database.scanTask_upsert]
  · rw [List.mem_singleton.mp hev, store_fin hrow]
    constructor
    · apply hrows.finalize
      right
      intro o ho
      exact h.unmatched b hb a ha hne.symm o.path (hvisit o ho)
    · exact Database.find_finalize_of_ne rowScan_withRoot hids

/-- Before its sentinel, the rows of a scan are those of its events so far. -/
theorem Together.rows_before (h : Together scans db)
    (hlook : ∀ s ∈ scans, rows.lookup s.id = some s.row)
    (ha : a ∈ scans) (hm : ∀ ev ∈ m, ∃ s ∈ scans, ev ∈ s.popped)
    (hown : m.filter (fun ev => ev.scanId = a.id) <+: a.events) :
    RowsOf (int64 a.id) (m.filter fun ev => ev.scanId = a.id) (m.foldl (Database.store rows) db) ∧
      (m.foldl (Database.store rows) db).scanTask.find (int64 a.id) = none := by
  induction m using List.reverseRecOn with
  | nil =>
    constructor
    · intro path c
      constructor
      · rintro ⟨hc, hs⟩
        exact absurd hs ((h.unused a ha).current path c hc)
      · rintro ⟨ev, hev, -⟩
        cases hev
    · exact (h.unused a ha).task
  | append_singleton m ev ih =>
    rw [List.filter_append] at hown ⊢
    obtain ⟨hrows, htask⟩ := ih (fun ev hev => hm ev (List.mem_append_left _ hev))
      ((List.prefix_append _ _).trans hown)
    rw [List.foldl_append, List.foldl_cons, List.foldl_nil]
    by_cases hid : ev.scanId = a.id
    · rw [List.filter_cons_of_pos (by simpa using hid), List.filter_nil] at hown ⊢
      have hev : ev ∈ a.events := hown.subset (by simp)
      have hnew : ev.path ∉ (m.filter fun ev => ev.scanId = a.id).map FileEvent.path := by
        have hdist : (((m.filter fun ev => ev.scanId = a.id) ++ [ev]).map FileEvent.path).Nodup :=
          (h.distinct a ha).sublist (hown.sublist.map _)
        rw [List.map_append, List.nodup_append] at hdist
        intro hp
        exact hdist.2.2 _ hp _ (by simp) rfl
      rw [store_plain hev]
      constructor
      · exact hrows.upsert_own (by rw [hid]) hnew
      · rw [Database.scanTask_upsert, htask]
    · rw [List.filter_cons_of_neg (by simpa using hid), List.filter_nil, List.append_nil] at hown ⊢
      obtain ⟨b, hb, hev⟩ := hm ev (by simp)
      have hne : a.id ≠ b.id := by
        rw [← scanId_of_mem_popped hev]
        exact Ne.symm hid
      obtain ⟨hrows', htask'⟩ := h.store_other ha hb hne (hlook b hb) hev
        (fun o ho => hown.subset ho) hrows
      exact ⟨hrows', htask'.trans htask⟩

/-- Its sentinel stores the counts of a scan whose rows are complete. -/
theorem Together.counts_at_fin (h : Together scans db) (ha : a ∈ scans)
    (hlook : rows.lookup a.id = some a.row) {d : Database}
    (hrows : RowsOf (int64 a.id) a.events d) (htask : d.scanTask.find (int64 a.id) = none) :
    (d.store rows a.fin).scanTask.find (int64 a.id) =
      some ((a.row.withRoot a.fin.path).columns.withCounts a.counts) := by
  rw [store_fin hlook]
  have hmark : RowsOf (int64 a.fin.scanId) a.events
      (d.markDeleted (a.fin.deleteTask (a.row.withRoot a.fin.path))) := hrows.markDeleted (.inl rfl)
  have hsum := hmark.totalSize_eq (h.distinct a ha) (h.small a ha)
  have hnodes := hmark.countNodes_eq (h.distinct a ha) (h.few a ha)
  refine (Database.find_finalize_counts rowScan_withRoot htask).trans ?_
  rw [Database.getCount, hsum, if_pos (int64_eq_self (h.small a ha)).symm, hnodes, hnodes, hnodes]
  rfl

/-- Whatever the order in the queue, the counts stored for a scan are those of its events. -/
theorem counts_stored (batchSize : ℕ) (h : Together scans db) (hl : Merged l scans)
    (ht : t.batchCount = 0)
    (hrows : ∀ s ∈ scans, t.pendingScanRows.lookup s.id = some s.row) :
    ∃ t' db', (ResultThread.writeResultToDb batchSize l t).run (.flawless (.closed db)) =
      .ok t' (.flawless (.closed db')) ∧
        ∀ s ∈ scans, ∃ r, db'.scanTask.find (int64 s.id) = some r ∧ r.counts = some s.counts := by
  obtain ⟨t', hrun⟩ := hl.run db batchSize ht hrows
  refine ⟨t', _, hrun, ?_⟩
  intro a ha
  -- the queue up to the sentinel of the scan, and after it
  obtain ⟨l₁, l₂, rfl, h₁, h₂⟩ := List.filter_eq_append_iff.mp (hl.own a ha)
  obtain ⟨l₃, l₄, rfl, h₃, -, h₄⟩ := List.filter_eq_cons_iff.mp h₂
  have hpopped : ∀ ev ∈ l₁ ++ (l₃ ++ a.fin :: l₄), ∃ s ∈ scans, ev ∈ s.popped :=
    fun ev hev => hl.mem_popped hev
  have hbefore : (l₁ ++ l₃).filter (fun ev => ev.scanId = a.id) = a.events := by
    rw [List.filter_append, h₁, List.filter_eq_nil_iff.mpr h₃, List.append_nil]
  have hpre := h.rows_before hrows ha (m := l₁ ++ l₃)
    (fun ev hev => hpopped ev (by simp at hev ⊢; tauto)) (by rw [hbefore])
  rw [hbefore] at hpre
  have hfin := h.counts_at_fin ha (hrows a ha) hpre.1 hpre.2
  -- the other scans leave the row
  have hafter : ∀ (m : List FileEvent) (d : Database), (∀ ev ∈ m, ∃ s ∈ scans, ev ∈ s.popped) →
      (∀ ev ∈ m, ev.scanId ≠ a.id) →
        (m.foldl (Database.store t.pendingScanRows) d).scanTask.find (int64 a.id) =
          d.scanTask.find (int64 a.id) := by
    intro m
    induction m with
    | nil => exact fun _ _ _ => rfl
    | cons ev m ih =>
      intro d hm hne
      obtain ⟨b, hb, hev⟩ := hm ev List.mem_cons_self
      have hid : a.id ≠ b.id := by
        rw [← scanId_of_mem_popped hev]
        exact (hne ev List.mem_cons_self).symm
      rw [List.foldl_cons, ih _ (fun ev hev => hm ev (List.mem_cons_of_mem _ hev))
        fun ev hev => hne ev (List.mem_cons_of_mem _ hev)]
      rcases List.mem_append.mp hev with hev | hev
      · rw [store_plain hev, Database.scanTask_upsert]
      · rw [List.mem_singleton.mp hev, store_fin (hrows b hb)]
        exact Database.find_finalize_of_ne rowScan_withRoot (Together.stored_ids hid)
  refine ⟨(a.row.withRoot a.fin.path).columns.withCounts a.counts, ?_, rfl⟩
  rw [← List.append_assoc, List.foldl_append, List.foldl_cons,
    hafter l₄ _ (fun ev hev => hpopped ev (by simp [hev])), hfin]
  intro ev hev hid
  exact List.filter_eq_nil_iff.mp h₄ ev hev (decide_eq_true hid)

/-- Two scans of a file of 512 bytes each, whose sentinels come in the other order. -/
theorem counts_stored_crossed :
    let a := fileScan 1 ['/', 'a'] 1 (by decide)
    let b := fileScan 2 ['/', 'b'] 2 (by decide)
    ∃ t' db', (ResultThread.writeResultToDb 2
      [fileEvent 1 ['/', 'a'] 1, fileEvent 2 ['/', 'b'] 2, b.fin, a.fin] (twoRows a b)).run
        (.flawless (.closed .empty)) = .ok t' (.flawless (.closed db')) ∧
      ∀ s ∈ [a, b], ∃ r, db'.scanTask.find (int64 s.id) = some r ∧ r.counts = some s.counts := by
  intro a b
  have hids : a.id ≠ b.id := by decide
  have heq : ∀ s ∈ [a, b], s.events.length = 1 ∧ (s.events.map FileEvent.size).sum = 512 := by
    intro s hs
    rcases List.mem_pair.mp hs with rfl | rfl <;> exact ⟨rfl, rfl⟩
  apply counts_stored 2 _ _ rfl (lookup_twoRows hids)
  · constructor
    · exact List.nodup_cons.mpr ⟨by simpa using hids, List.nodup_singleton _⟩
    · intro s _
      refine ⟨⟨fun _ => rfl, fun _ => rfl⟩, ?_, rfl⟩
      intro path c hc
      cases hc
    · intro s hs
      rcases List.mem_pair.mp hs with rfl | rfl <;> exact List.nodup_singleton _
    · intro s hs s' hs' hne path hp hp'
      rcases List.mem_pair.mp hs with rfl | rfl <;> rcases List.mem_pair.mp hs' with rfl | rfl
      · exact hne rfl
      · exact absurd ((List.mem_singleton.mp hp).symm.trans (List.mem_singleton.mp hp')) (by decide)
      · exact absurd ((List.mem_singleton.mp hp).symm.trans (List.mem_singleton.mp hp')) (by decide)
      · exact hne rfl
    · intro s hs s' hs' _ path hp
      rcases List.mem_pair.mp hs with rfl | rfl <;> rcases List.mem_pair.mp hs' with rfl | rfl <;>
        rw [List.mem_singleton.mp hp] <;> decide
    · intro s hs
      rw [(heq s hs).1]
      decide
    · intro s hs
      rw [(heq s hs).2]
      decide
  · constructor
    · decide
    · intro scan hscan
      rcases List.mem_pair.mp hscan with rfl | rfl <;> rfl

end ScanRun

end ScanDaemon
