import ScanDaemon.Export.Mirror
import ScanDaemon.Pipeline.Stored
import ScanDaemon.Traversal.Complete

/-! # The index mirrors the tree

A complete scan leaves in the area of its root the rows of its tree and no
others, whatever else is scanned meanwhile: scans of overlapping roots wait for
each other, and those of other roots do not touch the area. The counts in the
row of the scan are those of the tree.
-/

namespace ScanDaemon

open Interleave Relational

variable {cfg : Config} {tree : ScanId → FsNode} {maxScanId : ScanId} {m : DaemonState cfg}
  {s : ScanId} {root p : Path} {db : Database} {pre post l : List FileEvent} {z e : FileEvent}

theorem complete_of_reach (h : (daemon cfg tree maxScanId).Reach CancelsRegistered m) :
    Complete tree m := by
  refine h.invariant (P := Complete tree) complete_initial fun n a n' hn hok hs hc =>
    hc.step hn.reachable (fun hp s he => ?_) hs
  exact (warned_of_reach hn).canceled (sound_of_reachable hn.reachable) hp he

/-- What the index rests on outside the daemon: ids of 64 bits, proper directories, roots without
special characters, and tables that stem from earlier scans. -/
structure Regular (tree : ScanId → FsNode) (maxScanId : ScanId) (m : DaemonState cfg)
    (db : Database) : Prop where
  ids : m.shared.scheduler.nextScanId ≤ 2 ^ 64
  proper : ∀ q ∈ m.shared.history.submitted, (tree q.1).Proper
  plain : ∀ q ∈ m.shared.history.submitted, ∀ c ∈ q.2, ¬Glob.IsMeta c
  current : ∀ p c, db.indexCurrent.find p = some c → ∃ id ≤ maxScanId, c.scanId = int64 id
  task : ∀ i r, db.scanTask.find i = some r → ∃ id ≤ maxScanId, i = int64 id

/-! ## The events of one scan in the queue -/

/-- The plain events of a scan are events of its tree. -/
theorem recorded_of_pushed (h : (daemon cfg tree maxScanId).Reachable m)
    (he : e ∈ m.shared.exportManager.pushed) (hplain : e.endSignal.isSentinel = false) :
    ∃ root, (e.scanId, root) ∈ m.shared.history.submitted ∧
      e ∈ (rootJob tree ⟨e.scanId, root⟩).events := by
  have hrec : e ∈ m.shared.exportManager.recorded e.scanId :=
    Multiset.mem_filter.mpr ⟨he, rfl, hplain⟩
  have hle : m.shared.exportManager.recorded e.scanId ≤ covered e.scanId m.shared m.frames := by
    rw [covered, add_assoc]
    exact Multiset.le_add_right _ _
  have hcov := covering_of_reachable h
  have hacc : e.scanId ∈ m.shared.history.accepted := by
    by_contra hno
    have hin := Multiset.mem_of_le hle hrec
    rw [hcov.fresh _ hno] at hin
    exact absurd hin (Multiset.notMem_zero _)
  obtain ⟨root, hroot⟩ := submitted_of_mem_accepted h hacc
  exact ⟨root, hroot, Multiset.mem_of_le (hle.trans (hcov.bounded _ _ hroot)) hrec⟩

/-- What is put into the result queue stems from a submission. -/
theorem submitted_of_pushed (h : (daemon cfg tree maxScanId).Reachable m)
    (he : e ∈ m.shared.exportManager.pushed) :
    ∃ root, (e.scanId, root) ∈ m.shared.history.submitted := by
  refine h.invariant (P := fun m : DaemonState cfg => ∀ e ∈ m.shared.exportManager.pushed,
    ∃ root, (e.scanId, root) ∈ m.shared.history.submitted) ?_
      (fun n a n' hn _ hs hk e he => ?_) e he
  · simp [daemon, Shared.new, ExportManager.new, ExportManager.pushed, JobQueue.new]
  · obtain ⟨f, rest, fs, R, -, hst, -, hF, -⟩ := daemon_step hs
    have hmem : f ∈ n.frames := hF ▸ Multiset.mem_cons_self _ _
    have hold : e ∈ n.shared.exportManager.pushed →
        ∃ root, (e.scanId, root) ∈ n'.shared.history.submitted :=
      fun he => (hk e he).imp fun root hr => hst.submitted_subset hr
    rcases hst.pushed_eq with hp | ⟨data, rfl, hp⟩ | ⟨id, fake, row, rfl, hp⟩ <;> rw [hp] at he
    · exact hold he
    · rcases List.mem_append.mp he with he | he
      · exact hold he
      · have hin : e ∈ n'.shared.exportManager.pushed := by
          rw [hp, List.mem_singleton.mp he]
          simp
        obtain ⟨root, hroot, -⟩ := recorded_of_pushed (hn.step trivial hs) hin
          (by simp [List.mem_singleton.mp he])
        exact ⟨root, hroot⟩
    · rcases List.mem_append.mp he with he | he
      · exact hold he
      · obtain ⟨⟨-, hid⟩, hrow⟩ := sealed_of_reachable hn _ hmem
        have hsub := (submitted_of_reachable hn).frames _ hmem
        rw [List.mem_singleton.mp he, hid, ← hrow]
        exact ⟨row.submitRoot, hst.submitted_subset hsub⟩

/-- The events of a scan before its sentinel, among those of the others. -/
structure Closed (m : DaemonState cfg) (s : ScanId) (root : Path) (pre : List FileEvent)
    (z : FileEvent) : Prop where
  split : ∃ post, m.shared.exportManager.pushed = pre ++ z :: post
  complete : z.endSignal = ⟨true, false⟩
  id : z.scanId = s
  submitted : (s, root) ∈ m.shared.history.submitted

namespace Closed

variable (hz : Closed m s root pre z)

include hz

theorem ends : z.Ends s := by
  refine ⟨?_, hz.id⟩
  rw [hz.complete]

theorem plain (h : (daemon cfg tree maxScanId).Reachable m) (he : e ∈ pre) (hid : e.scanId = s) :
    e.endSignal.isSentinel = false := by
  obtain ⟨post, hp⟩ := hz.split
  obtain ⟨l₁, l₂, rfl⟩ := List.append_of_mem he
  by_contra hs
  rw [Bool.not_eq_false] at hs
  have hsplit : m.shared.exportManager.pushed = l₁ ++ e :: (l₂ ++ z :: post) := by simp [hp]
  exact (serial_of_reachable h).last _ _ _ hsplit hs z (by simp) (hz.id.trans hid.symm)

theorem own_le (h : (daemon cfg tree maxScanId).Reachable m) :
    ((pre.filter fun ev => ev.scanId = s : List FileEvent) : Multiset FileEvent) ≤
      (rootJob tree ⟨s, root⟩).events := by
  refine le_trans ?_ ((covering_of_reachable h).bounded s root hz.submitted)
  obtain ⟨post, hp⟩ := hz.split
  have hfilter : pre.filter (fun ev => ev.scanId = s) =
      pre.filter fun ev => ev.scanId = s ∧ ev.endSignal.isSentinel = false := by
    refine List.filter_congr fun ev hev => ?_
    by_cases hid : ev.scanId = s
    · simp [hid, hz.plain h hev hid]
    · simp [hid]
  have hrec : ((pre.filter fun ev => ev.scanId = s : List FileEvent) : Multiset FileEvent) ≤
      m.shared.exportManager.recorded s := by
    rw [hfilter, ExportManager.recorded, hp, ← Multiset.filter_coe]
    exact Multiset.filter_le_filter _ (Multiset.coe_le.mpr (List.sublist_append_left _ _).subperm)
  rw [covered, add_assoc]
  exact hrec.trans (Multiset.le_add_right _ _)

/-- The events of a complete scan before its sentinel are those of its tree. -/
theorem mem_own_iff (h : (daemon cfg tree maxScanId).Reach CancelsRegistered m) :
    e ∈ pre.filter (fun ev => ev.scanId = s) ↔ e ∈ (rootJob tree ⟨s, root⟩).events := by
  constructor
  · exact fun he => Multiset.mem_of_le (hz.own_le h.reachable) he
  · intro he
    obtain ⟨post, hp⟩ := hz.split
    obtain ⟨-, root', hroot, hall⟩ := (complete_of_reach h).sentinels pre z post hp hz.complete
    rw [hz.id] at hroot hall
    obtain rfl := (submitted_of_reachable h.reachable).unique s _ _ hz.submitted hroot
    have hid : e.scanId = s := (ScanData.of_mem_events he).1
    exact List.mem_filter.mpr ⟨hall e he, by simpa using hid⟩

theorem nodup_own (h : (daemon cfg tree maxScanId).Reachable m) (hproper : (tree s).Proper) :
    ((pre.filter fun ev => ev.scanId = s).map FileEvent.path).Nodup := by
  have hle := Multiset.map_le_map (f := FileEvent.path) (hz.own_le h)
  have hnodup : ((rootJob tree ⟨s, root⟩).events.map FileEvent.path).Nodup :=
    ScanData.nodup_paths hproper
  rw [← Multiset.coe_nodup] at hnodup ⊢
  rw [← Multiset.map_coe] at hnodup ⊢
  exact Multiset.nodup_of_le hle hnodup

/-- No scan of an overlapping root comes between an event of the scan and its sentinel. -/
theorem not_overlap (h : (daemon cfg tree maxScanId).Reachable m) {o : FileEvent}
    {l₁ l₂ : List FileEvent} (hl : pre = l₁ ++ l₂) (ho : o ∈ l₁) (he : e ∈ l₂) (hid : o.scanId = s)
    (hne : e.scanId ≠ s) : ¬Overlap m s e.scanId := by
  intro hover
  obtain ⟨post, hp⟩ := hz.split
  obtain ⟨k₁, k₂, rfl⟩ := List.append_of_mem he
  have hser := serial_of_reachable h
  have hsplit : m.shared.exportManager.pushed = (l₁ ++ k₁) ++ e :: (k₂ ++ z :: post) := by
    simp [hp, hl]
  obtain ⟨-, z', hz', hends⟩ := hser.turns _ _ _ hsplit o (List.mem_append_left _ ho)
    (hid ▸ hne.symm) (hid ▸ hover)
  -- the scan would have a sentinel before its last event
  rw [hid] at hends
  obtain ⟨j₁, j₂, hj⟩ := List.append_of_mem hz'
  have hsplit' : m.shared.exportManager.pushed = j₁ ++ z' :: (j₂ ++ e :: (k₂ ++ z :: post)) := by
    rw [hsplit, hj]
    simp
  exact hser.last _ _ _ hsplit' hends.1 z (by simp) (hz.id.trans hends.2.symm)

end Closed

/-- What touches the area of a root belongs to a scan of an overlapping root. -/
theorem overlap_of_touches (h : (daemon cfg tree maxScanId).Reachable m)
    (hreg : Regular tree maxScanId m db) (hsub : (s, root) ∈ m.shared.history.submitted)
    (hp : Within root p) (he : e ∈ m.shared.exportManager.pushed)
    (ht : e.Touches (rowsOf m.shared.history.stored) p) : Overlap m s e.scanId := by
  cases hs : e.endSignal.isSentinel with
  | false =>
    obtain ⟨root', hroot, hev⟩ := recorded_of_pushed h he hs
    have hw := ScanData.within_of_mem_events hev
    rw [(FileEvent.touches_of_plain hs).mp ht] at hw
    exact ⟨root, root', hsub, hroot, pathsOverlap_of_within hp hw⟩
  | true =>
    unfold FileEvent.Touches at ht
    rw [if_pos hs] at ht
    obtain ⟨row, hrow, hglob⟩ := ht
    obtain ⟨hroot, hne⟩ := submitted_of_lookup h hrow
    rw [ScanTaskRow.withRoot_of_ne hne] at hglob
    have happ : row.submitRoot ++ ['/', '*'] = (row.submitRoot ++ ['/']) ++ ['*'] := by simp
    rw [happ, glob_append_star] at hglob
    · exact ⟨root, row.submitRoot, hsub, hroot, pathsOverlap_of_within hp (.inr hglob)⟩
    · intro c hc
      rcases List.mem_append.mp hc with hc | hc
      · exact hreg.plain _ hroot c hc
      · rw [List.mem_singleton.mp hc]
        simp [Glob.IsMeta]

theorem Regular.stored_ids (hreg : Regular tree maxScanId m db)
    (h : (daemon cfg tree maxScanId).Reachable m) {t : ScanId} {root' : Path}
    (hs : (s, root) ∈ m.shared.history.submitted) (ht : (t, root') ∈ m.shared.history.submitted)
    (hne : t ≠ s) : int64 t ≠ int64 s := by
  have hnew := newIds_of_reachable h
  have hlt := hreg.ids
  exact fun he => hne (int64_inj ((hnew.submitted _ ht).2.trans_le hlt)
    ((hnew.submitted _ hs).2.trans_le hlt) he)

/-- The ids in the tables before are not those of the scans submitted. -/
theorem Regular.ne_of_old (hreg : Regular tree maxScanId m db)
    (h : (daemon cfg tree maxScanId).Reachable m) (hs : (s, root) ∈ m.shared.history.submitted)
    {id : ScanId} (hid : id ≤ maxScanId) : int64 id ≠ int64 s := by
  have hnew := newIds_of_reachable h
  have hlt : id < s := hid.trans_lt (hnew.submitted _ hs).1
  have hmax : s < 2 ^ 64 := (hnew.submitted _ hs).2.trans_le hreg.ids
  exact fun he => hlt.ne (int64_inj (hlt.trans hmax) hmax he)

namespace Closed

variable (hz : Closed m s root pre z) (h : (daemon cfg tree maxScanId).Reachable m)
  (hreg : Regular tree maxScanId m db)

include hz

theorem mem_pushed (he : e ∈ pre) : e ∈ m.shared.exportManager.pushed := by
  obtain ⟨post, hp⟩ := hz.split
  exact hp ▸ List.mem_append_left _ he

include h hreg

theorem ids_ne (he : e ∈ m.shared.exportManager.pushed) (hne : e.scanId ≠ s) :
    int64 e.scanId ≠ int64 s := by
  obtain ⟨root', hroot⟩ := submitted_of_pushed h he
  exact hreg.stored_ids h hz.submitted hroot hne

/-- Until its sentinel, a scan is alone in the area of its root. -/
theorem alone : RowsOf.Alone (rowsOf m.shared.history.stored) s pre where
  plain _ he hid := hz.plain h he hid
  ids _ he hne := hz.ids_ne h hreg (hz.mem_pushed he) hne
  nodup := hz.nodup_own h (hreg.proper _ hz.submitted)
  free := by
    rw [List.pairwise_iff_forall_sublist]
    intro o e hsub hid hne ht
    obtain ⟨l₁, l₂, hl, ho, he⟩ := List.cons_sublist_iff.mp hsub
    rw [List.singleton_sublist] at he
    have hown : o ∈ pre.filter fun ev => ev.scanId = s :=
      List.mem_filter.mpr ⟨hl ▸ List.mem_append_left _ ho, by simpa using hid⟩
    have hw : Within root o.path :=
      ScanData.within_of_mem_events (Multiset.mem_of_le (hz.own_le h) hown)
    have hpushed := hz.mem_pushed (hl ▸ List.mem_append_right _ he)
    exact hz.not_overlap h hl ho he hid hne
      (overlap_of_touches h hreg hz.submitted hw hpushed ht)

/-- Before the sentinel of the scan, the rows under its id are those of its events. -/
theorem rows_before : RowsOf (int64 s) (pre.filter fun ev => ev.scanId = s)
    (pre.foldl (Database.store (rowsOf m.shared.history.stored)) db) := by
  refine RowsOf.foldl_store (hz.alone h hreg) fun path c => ?_
  constructor
  · rintro ⟨hc, hs⟩
    obtain ⟨id, hid, he⟩ := hreg.current path c hc
    exact absurd (he.symm.trans hs) (hreg.ne_of_old h hz.submitted hid)
  · rintro ⟨ev, hev, -⟩
    cases hev

/-- After the sentinel, the area of the root has the rows of the scan and no others. -/
theorem find_of_within (hh : (daemon cfg tree maxScanId).Reach CancelsRegistered m)
    (hrow : ((rowsOf m.shared.history.stored).lookup s).isSome) (hp : Within root p)
    {c : CurrentRow} :
    ((pre ++ [z]).foldl (Database.store (rowsOf m.shared.history.stored)) db).indexCurrent.find p =
        some c ↔
      ∃ ev ∈ (rootJob tree ⟨s, root⟩).events, ev.path = p ∧ c = ⟨ev.row, int64 s⟩ := by
  obtain ⟨row, hrow⟩ := Option.isSome_iff_exists.mp hrow
  obtain ⟨hsub, hne⟩ := submitted_of_lookup h hrow
  have hroot : (row.withRoot z.path).submitRoot = root := by
    rw [ScanTaskRow.withRoot_of_ne hne]
    exact (submitted_of_reachable h).unique s _ _ hsub hz.submitted
  have htop : ∃ ev ∈ pre.filter (fun ev => ev.scanId = s), ev.path = root := by
    refine ⟨(rootJob tree ⟨s, root⟩).event, (hz.mem_own_iff hh).mpr ?_, ScanData.event_path _⟩
    rw [ScanData.events_eq]
    exact List.mem_cons_self
  rw [List.foldl_append, List.foldl_cons, List.foldl_nil,
    (hz.rows_before h hreg).find_of_within hz.complete hz.id hrow hroot
      (hreg.plain _ hz.submitted) htop hp]
  exact exists_congr fun ev => and_congr_left' (hz.mem_own_iff hh)

end Closed

/-- Whatever was scanned meanwhile, the index below the root of a complete scan is the tree that
the scan has found, until the next scan of an overlapping root. -/
theorem index_mirrors_tree (h : (daemon cfg tree maxScanId).Reach CancelsRegistered m)
    (hb : BetweenEvents m) (hrow : m.shared.history.rowMissing = false)
    (hreg : Regular tree maxScanId m db) (batchSize : ℕ)
    (hp : m.shared.exportManager.received = pre ++ z :: post) (hz : z.endSignal = ⟨true, false⟩)
    (hroot : (z.scanId, root) ∈ m.shared.history.submitted)
    (hlast : ∀ e ∈ post, ¬Overlap m z.scanId e.scanId) :
    ∃ t' db', (ResultThread.writeResultToDb batchSize m.shared.exportManager.received
        (resultThread m)).run (.flawless (.closed db)) = .ok t' (.flawless (.closed db')) ∧
      ∀ p, Within root p → ∀ c, db'.indexCurrent.find p = some c ↔
        ∃ ev ∈ (rootJob tree ⟨z.scanId, root⟩).events, ev.path = p ∧
          c = ⟨ev.row, int64 z.scanId⟩ := by
  have hreach := h.reachable
  obtain ⟨t', hrun⟩ := run_received hreach hb hrow db batchSize
  refine ⟨t', tables m db, hrun, fun p hw c => ?_⟩
  have hclosed : Closed m z.scanId root pre z :=
    ⟨⟨post ++ m.shared.exportManager.resultQueue.container, by simp [ExportManager.pushed, hp]⟩,
      hz, rfl, hroot⟩
  have hready := (rowsReady_of_reachable hreach hb hrow).registered z (by simp [hp])
    (by rw [hz])
  have hfree : ∀ e ∈ post, ¬e.Touches (rowsOf m.shared.history.stored) p := fun e he ht =>
    hlast e he (overlap_of_touches hreach hreg hroot hw
      (List.mem_append_left _ (by simp [hp, he])) ht)
  have hsplit : tables m db = post.foldl (Database.store (rowsOf m.shared.history.stored))
      ((pre ++ [z]).foldl (Database.store (rowsOf m.shared.history.stored)) db) := by
    rw [tables, hp, ← List.foldl_append, List.append_assoc, List.singleton_append]
  rw [hsplit, Database.find_current_foldl_store hfree]
  exact hclosed.find_of_within hreach hreg h hready hw

/-- Two scans of sibling directories, whose events mix in the result queue. -/
def siblingRun : List (Thread (smallConfig 2 2 2) × Input) :=
  serve (.submit ['/', 'a']) 2 ++ serve (.submit ['/', 'b']) 2 ++ steps 10 .run ++
    steps 3 (.worker ⟨0, Nat.two_pos⟩) ++ steps 21 (.worker ⟨1, Nat.one_lt_two⟩) ++
    steps 18 (.worker ⟨0, Nat.two_pos⟩) ++ steps 12 .result

/-- The daemon after the two scans. -/
def siblings : DaemonState (smallConfig 2 2 2) :=
  (daemon (smallConfig 2 2 2) (fun _ => smallTree) 0).run siblingRun

theorem reach_siblings :
    (daemon (smallConfig 2 2 2) (fun _ => smallTree) 0).Reach CancelsRegistered siblings :=
  System.reach_run (by decide +kernel)

theorem submitted_siblings :
    siblings.shared.history.submitted = [(2, ['/', 'b']), (1, ['/', 'a'])] := by
  decide +kernel

theorem regular_siblings : Regular (fun _ => smallTree) 0 siblings .empty where
  ids := by decide +kernel
  proper _ _ := by simp [smallTree, FsNode.Proper, FsNode.EntriesProper]
  plain := by simp [submitted_siblings, Glob.IsMeta]
  current _ _ hc := by cases hc
  task _ _ hr := by cases hr

/-- The sentinel of the first one of the two scans. -/
def siblingEnd : FileEvent := ⟨1, 0, 0, .ok, ['/', 'a'], .unknown, ⟨true, false⟩⟩

theorem received_siblings : siblings.shared.exportManager.received =
    siblings.shared.exportManager.received.take 3 ++ siblingEnd ::
      siblings.shared.exportManager.received.drop 4 := by
  decide +kernel

theorem submitted_first : (siblingEnd.scanId, ['/', 'a']) ∈ siblings.shared.history.submitted := by
  simp [submitted_siblings, siblingEnd]

theorem betweenEvents_siblings : BetweenEvents siblings := by
  have hst : siblings.stack .result = [.result .pop] := rfl
  simp [BetweenEvents, hst]

/-- The events of the two scans mix, and the index has the file of the first one. -/
theorem index_mirrors_tree_siblings :
    siblings.shared.exportManager.received.map FileEvent.scanId = [2, 1, 1, 1, 2, 2] ∧
      ∃ t' db', (ResultThread.writeResultToDb 3 siblings.shared.exportManager.received
          (resultThread siblings)).run (.flawless (.closed .empty)) =
            .ok t' (.flawless (.closed db')) ∧
        (db'.indexCurrent.find ['/', 'a', '/', 'b']).isSome ∧
        db'.indexCurrent.find ['/', 'a', '/', 'c'] = none := by
  have hids : ∀ e ∈ siblings.shared.exportManager.received.drop 4, e.scanId = 2 := by
    decide +kernel
  have hlast : ∀ e ∈ siblings.shared.exportManager.received.drop 4,
      ¬Overlap siblings siblingEnd.scanId e.scanId := by
    rintro e he ⟨root, root', hsub, hsub', hover⟩
    simp [submitted_siblings, siblingEnd, hids e he] at hsub hsub'
    subst hsub hsub'
    exact absurd hover (by decide)
  obtain ⟨t', db', hrun, hfind⟩ := index_mirrors_tree reach_siblings betweenEvents_siblings
    (by decide +kernel) regular_siblings 3 received_siblings rfl submitted_first hlast
  refine ⟨by decide +kernel, t', db', hrun, ?_, ?_⟩
  · rw [(hfind ['/', 'a', '/', 'b'] (by decide) _).mpr ⟨_, List.mem_cons_of_mem _
      List.mem_cons_self, by decide, rfl⟩]
    rfl
  · rw [Option.eq_none_iff_forall_ne_some]
    intro c hc
    obtain ⟨ev, hev, hpath, -⟩ := (hfind _ (by decide) c).mp hc
    revert ev
    decide

/-! ## The counts -/

/-- The nodes of a tree by type, and the sum of their sizes. -/
def ScanData.counts (data : ScanData) : ScanCounts where
  dirCount := data.events.countP fun ev => ev.nodeType = .dir
  fileCount := data.events.countP fun ev => ev.nodeType = .file
  linkCount := data.events.countP fun ev => ev.nodeType = .link
  totalSize := (data.events.map FileEvent.size).sum

namespace Closed

variable (hz : Closed m s root pre z)

include hz

theorem perm_own (h : (daemon cfg tree maxScanId).Reach CancelsRegistered m)
    (hproper : (tree s).Proper) :
    (pre.filter fun ev => ev.scanId = s).Perm (rootJob tree ⟨s, root⟩).events := by
  have hown := (hz.nodup_own h.reachable hproper).of_map
  have htree : (rootJob tree ⟨s, root⟩).events.Nodup := (ScanData.nodup_paths hproper).of_map
  exact (List.perm_ext_iff_of_nodup hown htree).mpr fun ev => hz.mem_own_iff h

/-- The sentinel stores the counts of the tree. -/
theorem find_task (h : (daemon cfg tree maxScanId).Reach CancelsRegistered m)
    (hreg : Regular tree maxScanId m db) {row : ScanTaskRow}
    (hrow : (rowsOf m.shared.history.stored).lookup s = some row)
    (hfew : (tree s).size < 2 ^ 31)
    (hsmall : ((rootJob tree ⟨s, root⟩).events.map FileEvent.size).sum < 2 ^ 63) :
    ((pre ++ [z]).foldl (Database.store (rowsOf m.shared.history.stored)) db).scanTask.find
      (int64 s) = some (row.columns.withCounts (rootJob tree ⟨s, root⟩).counts) := by
  have hreach := h.reachable
  have hproper := hreg.proper _ hz.submitted
  have hperm := hz.perm_own h hproper
  have hdist := hz.nodup_own hreach hproper
  obtain ⟨hmem, hid⟩ := mem_of_lookup_rowsOf hrow
  have hwith : row.withRoot z.path = row :=
    ScanTaskRow.withRoot_of_ne (submitted_of_lookup hreach hrow).2
  have hrows := hz.rows_before hreach hreg
  have hnone : (pre.foldl (Database.store (rowsOf m.shared.history.stored)) db).scanTask.find
      (int64 s) = none := by
    rw [Database.find_task_foldl_store fun id r hr => (mem_of_lookup_rowsOf hr).2]
    · cases hf : db.scanTask.find (int64 s) with
      | none => rfl
      | some r =>
        obtain ⟨id, hle, he⟩ := hreg.task _ _ hf
        exact absurd he.symm (hreg.ne_of_old hreach hz.submitted hle)
    · intro ev hev hs
      refine (hz.ids_ne hreach hreg (hz.mem_pushed hev) fun he => ?_).symm
      rw [hz.plain hreach hev he] at hs
      cases hs
  obtain ⟨hs, rfl⟩ := hz.ends
  rw [List.foldl_append, List.foldl_cons, List.foldl_nil]
  generalize pre.foldl (Database.store (rowsOf m.shared.history.stored)) db = d at hrows hnone
  have hstore : d.store (rowsOf m.shared.history.stored) z = d.finalize row z := by
    simp [Database.store, hs, hrow, hwith]
  have hmark : RowsOf (int64 z.scanId) (pre.filter fun ev => ev.scanId = z.scanId)
      (d.markDeleted (z.deleteTask row)) := hrows.markDeleted (.inl rfl)
  have hlen : (pre.filter fun ev => ev.scanId = z.scanId).length < 2 ^ 31 := by
    rw [hperm.length_eq]
    exact (FsNode.length_events _ _ _).trans_lt hfew
  have hsizes := (hperm.map FileEvent.size).sum_eq
  have hsum := hmark.totalSize_eq hdist (hsizes ▸ hsmall)
  have hnodes := hmark.countNodes_eq hdist hlen
  rw [hstore, Database.find_finalize_counts hid hnone, Database.getCount, hsum, hsizes,
    if_pos (int64_eq_self hsmall).symm, hnodes, hnodes, hnodes, hperm.countP_eq, hperm.countP_eq,
    hperm.countP_eq]
  rfl

end Closed

/-- Whatever was scanned meanwhile and afterwards, the counts stored for a complete scan are those
of its tree. -/
theorem counts_mirror_tree (h : (daemon cfg tree maxScanId).Reach CancelsRegistered m)
    (hb : BetweenEvents m) (hrow : m.shared.history.rowMissing = false)
    (hreg : Regular tree maxScanId m db) (batchSize : ℕ)
    (hev : z ∈ m.shared.exportManager.received) (hz : z.endSignal = ⟨true, false⟩)
    (hroot : (z.scanId, root) ∈ m.shared.history.submitted)
    (hfew : (tree z.scanId).size < 2 ^ 31)
    (hsmall : ((rootJob tree ⟨z.scanId, root⟩).events.map FileEvent.size).sum < 2 ^ 63) :
    ∃ t' db' row, (ResultThread.writeResultToDb batchSize m.shared.exportManager.received
        (resultThread m)).run (.flawless (.closed db)) = .ok t' (.flawless (.closed db')) ∧
      row ∈ m.shared.history.stored ∧ row.scanId = z.scanId ∧ row.submitRoot = root ∧
      db'.scanTask.find (int64 z.scanId) =
        some (row.columns.withCounts (rootJob tree ⟨z.scanId, root⟩).counts) := by
  have hreach := h.reachable
  obtain ⟨t', hrun⟩ := run_received hreach hb hrow db batchSize
  obtain ⟨pre, post, hp⟩ := List.append_of_mem hev
  have hpushed : m.shared.exportManager.pushed = pre ++ z :: (post ++
      m.shared.exportManager.resultQueue.container) := by simp [ExportManager.pushed, hp]
  have hclosed : Closed m z.scanId root pre z := ⟨⟨_, hpushed⟩, hz, rfl, hroot⟩
  obtain ⟨row, hlook⟩ := Option.isSome_iff_exists.mp
    ((rowsReady_of_reachable hreach hb hrow).registered z hev (by rw [hz]))
  obtain ⟨hmem, hid⟩ := mem_of_lookup_rowsOf hlook
  have hsub := (submitted_of_lookup hreach hlook).1
  refine ⟨t', tables m db, row, hrun, hmem, hid,
    (submitted_of_reachable hreach).unique _ _ _ hsub hroot, ?_⟩
  have hsplit : tables m db = post.foldl (Database.store (rowsOf m.shared.history.stored))
      ((pre ++ [z]).foldl (Database.store (rowsOf m.shared.history.stored)) db) := by
    rw [tables, hp, ← List.foldl_append, List.append_assoc, List.singleton_append]
  rw [hsplit, Database.find_task_foldl_store fun id r hr => (mem_of_lookup_rowsOf hr).2]
  · exact hclosed.find_task h hreg hlook hfew hsmall
  · intro e he _
    have hin : e ∈ m.shared.exportManager.pushed := by simp [hpushed, he]
    exact (hclosed.ids_ne hreach hreg hin ((serial_of_reachable hreach).last _ _ _ hpushed
      hclosed.ends.1 e (by simp [he]))).symm

theorem counts_mirror_tree_siblings : ∃ t' db' row,
    (ResultThread.writeResultToDb 3 siblings.shared.exportManager.received
      (resultThread siblings)).run (.flawless (.closed .empty)) =
        .ok t' (.flawless (.closed db')) ∧
      db'.scanTask.find (int64 (1 : ScanId)) =
        some (ScanTaskRow.columns row |>.withCounts ⟨1, 1, 0, 0⟩) := by
  have hev : siblingEnd ∈ siblings.shared.exportManager.received := by
    rw [received_siblings]
    simp
  obtain ⟨t', db', row, hrun, -, -, -, hfind⟩ := counts_mirror_tree reach_siblings
    betweenEvents_siblings (by decide +kernel) regular_siblings 3 hev rfl submitted_first
    (by decide) (by decide)
  exact ⟨t', db', row, hrun, hfind⟩

end ScanDaemon
