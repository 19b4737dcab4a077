import ScanDaemon.Database.MarkDeleted
import ScanDaemon.Export.Counts
import ScanDaemon.Scan.Areas

/-! # One area of the index

What the result thread stores changes `index_current` only at the paths of the
events and at those that the pattern of a sentinel matches. So the rows of an
area are decided by the events of one scan, as long as nothing else touches the
area meanwhile; after its sentinel they are the rows of the scan alone.
-/

namespace ScanDaemon

open Relational

variable {rows : ScanMap ScanTaskRow} {ev z : FileEvent} {l own : List FileEvent} {db : Database}
  {s : ScanId} {i : ℤ} {p root : Path} {row : ScanTaskRow}

/-- Storing the event may change the row of `p` in `index_current`. -/
def FileEvent.Touches (rows : ScanMap ScanTaskRow) (ev : FileEvent) (p : Path) : Prop :=
  if ev.endSignal.isSentinel then
    ∃ row, rows.lookup ev.scanId = some row ∧
      glob ((row.withRoot ev.path).submitRoot ++ ['/', '*']) p = true
  else ev.path = p

theorem FileEvent.touches_of_plain (h : ev.endSignal.isSentinel = false) :
    ev.Touches rows p ↔ ev.path = p := by
  simp [Touches, h]

theorem FileEvent.touches_of_sentinel (h : ev.endSignal.isSentinel = true)
    (hrow : rows.lookup ev.scanId = some row) :
    ev.Touches rows p ↔ glob ((row.withRoot ev.path).submitRoot ++ ['/', '*']) p = true := by
  simp [Touches, h, hrow]

namespace Database

theorem indexCurrent_finalize : (db.finalize row ev).indexCurrent =
    (db.markDeleted (ev.deleteTask row)).indexCurrent := by
  unfold finalize markDeleted
  split <;> rfl

theorem find_current_store (h : ¬ev.Touches rows p) :
    (db.store rows ev).indexCurrent.find p = db.indexCurrent.find p := by
  unfold store
  cases hs : ev.endSignal.isSentinel with
  | false =>
    rw [FileEvent.touches_of_plain hs] at h
    rw [if_neg Bool.false_ne_true, find_current_upsert, if_neg (Ne.symm h)]
  | true =>
    rw [if_pos rfl]
    cases hrow : rows.lookup ev.scanId with
    | none => rfl
    | some row =>
      rw [FileEvent.touches_of_sentinel hs hrow, Bool.not_eq_true] at h
      dsimp only
      rw [indexCurrent_finalize]
      refine DeleteTask.find_current_of_kept fun r _ => .inr ?_
      rw [DeleteTask.stale, FileEvent.deleteTask, h, Bool.false_and]

theorem find_current_foldl_store (h : ∀ ev ∈ l, ¬ev.Touches rows p) :
    (l.foldl (store rows) db).indexCurrent.find p = db.indexCurrent.find p := by
  induction l generalizing db with
  | nil => rfl
  | cons ev l ih =>
    rw [List.foldl_cons, ih fun e he => h e (List.mem_cons_of_mem _ he),
      find_current_store (h ev List.mem_cons_self)]

/-- Only the sentinel of a scan writes its row in `scan_task_table`. -/
theorem find_task_store (hrows : ∀ id row, rows.lookup id = some row → row.scanId = id)
    (h : ev.endSignal.isSentinel = true → i ≠ int64 ev.scanId) :
    (db.store rows ev).scanTask.find i = db.scanTask.find i := by
  unfold store
  split_ifs with hs
  · cases hrow : rows.lookup ev.scanId with
    | none => rfl
    | some row =>
      refine find_finalize_of_ne ?_ (h hs)
      rw [ScanTaskRow.withRoot_scanId, hrows _ _ hrow]
  · rw [scanTask_upsert]

theorem find_task_foldl_store (hrows : ∀ id row, rows.lookup id = some row → row.scanId = id)
    (h : ∀ ev ∈ l, ev.endSignal.isSentinel = true → i ≠ int64 ev.scanId) :
    (l.foldl (store rows) db).scanTask.find i = db.scanTask.find i := by
  induction l generalizing db with
  | nil => rfl
  | cons ev l ih =>
    rw [List.foldl_cons, ih fun e he => h e (List.mem_cons_of_mem _ he),
      find_task_store hrows (h ev List.mem_cons_self)]

end Database

namespace RowsOf

theorem store_other (h : RowsOf i own db) (hid : int64 ev.scanId ≠ i)
    (hfree : ∀ o ∈ own, ¬ev.Touches rows o.path) : RowsOf i own (db.store rows ev) := by
  unfold Database.store
  cases hs : ev.endSignal.isSentinel with
  | false =>
    rw [if_neg Bool.false_ne_true]
    refine h.upsert_other hid fun hp => ?_
    obtain ⟨o, ho, hpath⟩ := List.mem_map.mp hp
    exact hfree o ho ((FileEvent.touches_of_plain hs).mpr hpath.symm)
  | true =>
    rw [if_pos rfl]
    cases hrow : rows.lookup ev.scanId with
    | none => exact h
    | some row =>
      refine h.finalize (.inr fun o ho => ?_)
      have hno := hfree o ho
      rwa [FileEvent.touches_of_sentinel hs hrow, Bool.not_eq_true] at hno

/-- What a scan needs from a part of the queue: it records no path twice and has its sentinel
elsewhere, and no other scan touches a path after the scan has recorded it. -/
structure Alone (rows : ScanMap ScanTaskRow) (s : ScanId) (l : List FileEvent) : Prop where
  plain : ∀ ev ∈ l, ev.scanId = s → ev.endSignal.isSentinel = false
  ids : ∀ ev ∈ l, ev.scanId ≠ s → int64 ev.scanId ≠ int64 s
  nodup : ((l.filter fun ev => ev.scanId = s).map FileEvent.path).Nodup
  free : l.Pairwise fun o ev => o.scanId = s → ev.scanId ≠ s → ¬ev.Touches rows o.path

theorem Alone.of_append (h : Alone rows s (l ++ own)) : Alone rows s l where
  plain ev hev := h.plain ev (List.mem_append_left _ hev)
  ids ev hev := h.ids ev (List.mem_append_left _ hev)
  nodup := by
    have hn := h.nodup
    rw [List.filter_append, List.map_append] at hn
    exact hn.of_append_left
  free := (List.pairwise_append.mp h.free).1

/-- The rows of a scan that is left alone are those of its events. -/
theorem foldl_store (h : Alone rows s l) (hnew : RowsOf (int64 s) [] db) :
    RowsOf (int64 s) (l.filter fun ev => ev.scanId = s) (l.foldl (Database.store rows) db) := by
  induction l using List.reverseRecOn with
  | nil => exact hnew
  | append_singleton l ev ih =>
    have hl := ih h.of_append
    rw [List.foldl_append, List.foldl_cons, List.foldl_nil, List.filter_append]
    by_cases hid : ev.scanId = s
    · have hplain := h.plain ev (by simp) hid
      have hstore : ∀ db : Database, db.store rows ev = db.upsert ev := by
        simp [Database.store, hplain]
      have hnodup := h.nodup
      rw [List.filter_append, List.filter_cons_of_pos (by simpa using hid), List.filter_nil,
        List.map_append, List.map_singleton, List.nodup_append] at hnodup
      rw [List.filter_cons_of_pos (by simpa using hid), List.filter_nil, hstore]
      refine hl.upsert_own (by rw [hid]) fun hp => ?_
      exact hnodup.2.2 _ hp _ (List.mem_singleton_self _) rfl
    · rw [List.filter_cons_of_neg (by simpa using hid), List.filter_nil, List.append_nil]
      refine hl.store_other (h.ids ev (by simp) hid) fun o ho => ?_
      obtain ⟨ho, hso⟩ := List.mem_filter.mp ho
      exact (List.pairwise_append.mp h.free).2.2 o ho ev (List.mem_singleton_self _)
        (by simpa using hso) hid

/-- After the sentinel of a complete scan the area of its root has the rows of the scan and no
others. -/
theorem find_of_within (h : RowsOf (int64 s) own db) (hz : z.endSignal = ⟨true, false⟩)
    (hid : z.scanId = s) (hrow : rows.lookup s = some row)
    (hroot : (row.withRoot z.path).submitRoot = root) (hplain : ∀ c ∈ root, ¬Glob.IsMeta c)
    (htop : ∃ ev ∈ own, ev.path = root) (hp : Within root p) {c : CurrentRow} :
    (db.store rows z).indexCurrent.find p = some c ↔
      ∃ ev ∈ own, ev.path = p ∧ c = ⟨ev.row, int64 s⟩ := by
  subst hid
  have hs : z.endSignal.isSentinel = true := by rw [hz]
  have hstore : db.store rows z = db.finalize (row.withRoot z.path) z := by
    simp [Database.store, hs, hrow]
  have hafter : RowsOf (int64 z.scanId) own (db.store rows z) := by
    rw [hstore]
    exact h.finalize (.inl rfl)
  rw [← hafter p c, iff_self_and]
  intro hc
  by_contra hne
  rcases hp with rfl | hp
  · -- the root itself has the row of its event
    obtain ⟨ev, hev, hpath⟩ := htop
    have hown := (hafter p ⟨ev.row, int64 z.scanId⟩).mpr ⟨ev, hev, hpath, rfl⟩
    rw [hown.1] at hc
    exact hne (Option.some.inj hc ▸ rfl)
  · -- below the root the rows of other scans are stale
    have hglob : glob (root ++ ['/', '*']) p = true := by
      have happ : root ++ ['/', '*'] = (root ++ ['/']) ++ ['*'] := by simp
      rw [happ, glob_append_star]
      · exact hp
      · intro d hd
        rcases List.mem_append.mp hd with hd | hd
        · exact hplain d hd
        · rw [List.mem_singleton.mp hd]
          simp [Glob.IsMeta]
    rw [hstore, Database.indexCurrent_finalize, Database.find_current_markDeleted,
      Option.filter_eq_some_iff] at hc
    have hcan : z.endSignal.isCanceled = false := by rw [hz]
    simp [FileEvent.deleteTask, DeleteTask.stale, hcan, hroot, hglob, hne] at hc

end RowsOf

end ScanDaemon
