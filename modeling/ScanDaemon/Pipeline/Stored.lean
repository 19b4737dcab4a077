import ScanDaemon.Export.ResultWriter
import ScanDaemon.Lifecycle.Serial

/-! # The result thread finds its rows

The events that the result thread receives are those of the machine of threads,
and the rows that it looks up are those that `insert_scan_task` has stored.
Between two events it has found the row of every sentinel received so far.
-/

namespace ScanDaemon

open Interleave

variable {cfg : Config} {tree : ScanId → FsNode} {maxScanId : ScanId} {m m' : DaemonState cfg}
  {a : Thread cfg × Input} {s : ScanId} {root : Path} {row : ScanTaskRow}
  {stored : List ScanTaskRow} {db : Database}

/-- The rows by the ids of their scans. -/
def rowsOf (stored : List ScanTaskRow) : ScanMap ScanTaskRow :=
  stored.foldr (fun row rows => rows.insert row.scanId row) ∅

theorem mem_of_lookup_rowsOf (h : (rowsOf stored).lookup s = some row) :
    row ∈ stored ∧ row.scanId = s := by
  induction stored with
  | nil => simp [rowsOf] at h
  | cons r stored ih =>
    rw [rowsOf, List.foldr_cons, ← rowsOf, ScanMap.lookup_insert] at h
    split_ifs at h with hs
    · cases h
      exact ⟨List.mem_cons_self, hs.symm⟩
    · exact (ih h).imp_left (List.mem_cons_of_mem _)

theorem lookup_rowsOf_isSome (h : row ∈ stored) : ((rowsOf stored).lookup row.scanId).isSome := by
  induction stored with
  | nil => cases h
  | cons r stored ih =>
    rw [rowsOf, List.foldr_cons, ← rowsOf, ScanMap.lookup_insert]
    split_ifs with hs
    · rfl
    · rcases List.mem_cons.mp h with rfl | h
      · exact absurd rfl hs
      · exact ih h

/-- The rows stored have the roots that were submitted. -/
theorem submitted_of_stored (h : (daemon cfg tree maxScanId).Reachable m)
    (hr : row ∈ m.shared.history.stored) :
    (row.scanId, row.submitRoot) ∈ m.shared.history.submitted := by
  refine h.invariant (P := fun m : DaemonState cfg => ∀ row ∈ m.shared.history.stored,
    (row.scanId, row.submitRoot) ∈ m.shared.history.submitted) ?_ ?_ row hr
  · simp [daemon, Shared.new, History.new]
  · intro n a n' hn _ hs hk row hr
    obtain ⟨f, rest, fs, R, -, hst, -, hF, -⟩ := daemon_step hs
    refine hst.submitted_subset ?_
    rcases hst.stored_eq with he | ⟨id, r, rfl, he⟩ <;> rw [he] at hr
    · exact hk row hr
    · rcases List.mem_cons.mp hr with rfl | hr
      · exact (submitted_of_reachable hn).frames (.finish id (.insertRow row))
          (hF ▸ Multiset.mem_cons_self _ _)
      · exact hk row hr

theorem submitted_of_lookup (h : (daemon cfg tree maxScanId).Reachable m)
    (hr : (rowsOf m.shared.history.stored).lookup s = some row) :
    (s, row.submitRoot) ∈ m.shared.history.submitted ∧ row.submitRoot ≠ [] := by
  obtain ⟨hmem, rfl⟩ := mem_of_lookup_rowsOf hr
  have hsub := submitted_of_stored h hmem
  exact ⟨hsub, ((submitted_of_reachable h).proper _ _ hsub).2⟩

/-- The ids submitted are new. -/
structure NewIds (maxScanId : ScanId) (m : DaemonState cfg) : Prop where
  next : maxScanId < m.shared.scheduler.nextScanId
  drawn : ∀ g ∈ m.frames, ∀ q ∈ g.drawn,
    maxScanId < q.1 ∧ q.1 < m.shared.scheduler.nextScanId
  submitted : ∀ q ∈ m.shared.history.submitted,
    maxScanId < q.1 ∧ q.1 < m.shared.scheduler.nextScanId

theorem newIds_of_reachable (h : (daemon cfg tree maxScanId).Reachable m) : NewIds maxScanId m := by
  refine h.invariant ⟨?_, fun g hg => ?_, ?_⟩ fun n a n' _ _ hs hk => ?_
  · simp [daemon, Shared.new, Scheduler.new]
  · obtain ⟨i, hi⟩ := Machine.mem_frames.mp hg
    cases i <;> simp [daemon, initialStack] at hi <;> subst hi <;> simp [Frame.drawn]
  · simp [daemon, Shared.new, History.new]
  · obtain ⟨f, rest, fs, R, -, hst, -, hF, hF'⟩ := daemon_step hs
    have hmem : ∀ g ∈ n'.frames, g ∈ fs ∨ g ∈ n.frames := by
      intro g hg
      rw [hF', Multiset.mem_add] at hg
      exact hg.imp_right fun hg => hF ▸ Multiset.mem_cons_of_mem hg
    rcases hst.ids with ⟨root, hnext, hsub, hfs⟩ | ⟨p, hp, -, -, hsub, hnext, rfl⟩ |
      ⟨hsub, hnext, hfs⟩
    · have hlt := hk.next
      refine ⟨hnext ▸ Nat.lt_succ_of_lt hlt, fun g hg q hq => ?_, fun q hq => ?_⟩
      · rcases hmem g hg with hg | hg
        · rw [hfs g hg q hq, hnext]
          exact ⟨hlt, Nat.lt_succ_self _⟩
        · exact hnext ▸ (hk.drawn g hg q hq).imp_right Nat.lt_succ_of_lt
      · exact hnext ▸ (hk.submitted q (hsub ▸ hq)).imp_right Nat.lt_succ_of_lt
    · refine ⟨hnext ▸ hk.next, fun g hg => ?_, fun q hq => ?_⟩
      · rw [hnext]
        exact hk.drawn g ((hmem g hg).resolve_left (by simp))
      · rw [hnext]
        rcases List.mem_cons.mp (hsub ▸ hq) with rfl | hq
        · exact hk.drawn f (hF ▸ Multiset.mem_cons_self _ _) q hp
        · exact hk.submitted q hq
    · refine ⟨hnext ▸ hk.next, fun g hg q hq => ?_, hsub ▸ hnext ▸ hk.submitted⟩
      rw [hnext]
      rcases hmem g hg with hg | hg
      · rw [hfs g hg] at hq
        cases hq
      · exact hk.drawn g hg q hq

theorem stored_of_released (h : (daemon cfg tree maxScanId).Reachable m)
    (hs : s ∈ m.shared.history.released) :
    ∃ row ∈ m.shared.history.stored, row.scanId = s := by
  have hle := exported_of_reachable h s
  have hpos := List.count_pos_iff.mpr hs
  have hstored : 0 < m.shared.history.storedRows s := by omega
  obtain ⟨row, hrow, hid⟩ := List.countP_pos_iff.mp hstored
  exact ⟨row, hrow, by simpa using hid⟩

/-- The result thread as it starts, with the rows that will have been stored. -/
def resultThread (m : DaemonState cfg) : ResultThread := ⟨0, rowsOf m.shared.history.stored, ∅⟩

/-- The tables after the events that the result thread has received. -/
def tables (m : DaemonState cfg) (db : Database) : Database :=
  m.shared.exportManager.received.foldl (Database.store (rowsOf m.shared.history.stored)) db

theorem rowsReady_of_reachable (h : (daemon cfg tree maxScanId).Reachable m) (hb : BetweenEvents m)
    (hrow : m.shared.history.rowMissing = false) :
    ResultThread.RowsReady (resultThread m).pendingScanRows m.shared.exportManager.received := by
  refine ⟨fun ev hev hs => ?_, ?_⟩
  · obtain ⟨row, hr, hid⟩ := stored_of_released h (released_of_received h hb hrow hev ⟨hs, rfl⟩)
    rw [← hid]
    exact lookup_rowsOf_isSome hr
  · rw [List.pairwise_iff_forall_sublist]
    intro z e hsub hz he hid
    obtain ⟨l₁, l₂, hl, hz₁, he₂⟩ := List.cons_sublist_iff.mp hsub
    rw [List.singleton_sublist] at he₂
    obtain ⟨k₁, k₂, rfl⟩ := List.append_of_mem hz₁
    have hp : m.shared.exportManager.pushed = k₁ ++ z :: (k₂ ++ l₂ ++
        m.shared.exportManager.resultQueue.container) := by
      simp [ExportManager.pushed, hl]
    exact (serial_of_reachable h).last _ _ _ hp hz e (by simp [he₂]) hid.symm

/-- When no call of the database fails, the result thread stores what it has received. -/
theorem run_received (h : (daemon cfg tree maxScanId).Reachable m) (hb : BetweenEvents m)
    (hrow : m.shared.history.rowMissing = false) (db : Database) (batchSize : ℕ) :
    ∃ t', (ResultThread.writeResultToDb batchSize m.shared.exportManager.received
      (resultThread m)).run (.flawless (.closed db)) =
        .ok t' (.flawless (.closed (tables m db))) := by
  have hbatch : ResultThread.batch (resultThread m).batchCount db db = .closed db := rfl
  have hrun := ResultThread.run_writeResultToDb_flawless (d := db) (e := db) batchSize
    (rowsReady_of_reachable h hb hrow)
  rwa [hbatch] at hrun

end ScanDaemon
