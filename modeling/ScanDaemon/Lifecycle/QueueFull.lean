import ScanDaemon.Lifecycle.Backlog

/-! # When the pending queue is full

`pending_scans` counts the scans that are PENDING or DISPATCHING together with
the entries of scans that were over before `run` could remove them, and
`QUEUE_MAX_SIZE` is converted to an `int` before it is compared with them.
-/

namespace ScanDaemon

open Interleave

variable {cfg : Config} {tree : ScanId → FsNode} {maxScanId : ScanId} {m : DaemonState cfg}

namespace Scheduler

variable {sc : Scheduler} {current : Option PendingRoot} {id : ScanId} {rootPath : Path}

/-- The scan is PENDING or DISPATCHING. -/
def waits (sc : Scheduler) (id : ScanId) : Bool :=
  decide (sc.state id = some .pending ∨ sc.state id = some .dispatching)

/-- The scan has been canceled or has ended. -/
def isOver (sc : Scheduler) (id : ScanId) : Bool :=
  decide (sc.state id ∈ [some .canceled, some .done, some .failed])

/-- How many scans are PENDING or DISPATCHING. -/
def waitingScans (sc : Scheduler) : ℕ := sc.stateMap.keys.countP sc.waits

/-- The entries of scans that were over before `run` could remove them. -/
def leftEntries (sc : Scheduler) : ℕ := sc.pendingQueue.countP fun data => sc.isOver data.scanId

theorem mem_keys_of_waits (h : sc.waits id = true) : id ∈ sc.stateMap.keys := by
  refine AList.mem_keys.mp (AList.lookup_isSome.mp ?_)
  rcases of_decide_eq_true h with h | h <;> rw [← state, h] <;> rfl

/-- Each scan that is PENDING or DISPATCHING has an entry. -/
theorem Entries.mem_entryIds (h : sc.Entries current) (hq : sc.Queued current)
    (hstop : sc.stopFlag = false) (hw : sc.waits id = true) : id ∈ sc.entryIds := by
  rcases of_decide_eq_true hw with hid | hid
  · obtain ⟨data, hd, rfl⟩ := hq.pending id hid
    exact List.mem_map_of_mem hd
  · obtain ⟨data, hd, rfl⟩ := h.dispatching id hid
    exact List.mem_map_of_mem (List.mem_of_mem_head? (hq.front hstop data hd))

/-- Their entries are as many as they are. -/
theorem Entries.countP_waits (h : sc.Entries current) (hq : sc.Queued current)
    (hstop : sc.stopFlag = false) :
    sc.pendingQueue.countP (fun data => sc.waits data.scanId) = sc.waitingScans := by
  have hmap : sc.pendingQueue.countP (fun data => sc.waits data.scanId) =
      sc.entryIds.countP sc.waits := by
    rw [entryIds, List.countP_map]
    rfl
  rw [hmap, waitingScans, List.countP_eq_length_filter, List.countP_eq_length_filter]
  apply List.Perm.length_eq
  rw [List.perm_ext_iff_of_nodup (h.distinct.filter _) (sc.stateMap.keys_nodup.filter _)]
  intro id
  rw [List.mem_filter, List.mem_filter]
  exact ⟨fun hid => ⟨mem_keys_of_waits hid.2, hid.2⟩,
    fun hid => ⟨h.mem_entryIds hq hstop hid.2, hid.2⟩⟩

/-- What `pending_scans` counts. -/
theorem Entries.pendingScans_eq (h : sc.Entries current) (hq : sc.Queued current)
    (hstop : sc.stopFlag = false) : sc.pendingScans = sc.waitingScans + sc.leftEntries := by
  have hsplit : sc.pendingQueue.countP sc.undropped =
      sc.pendingQueue.countP (fun data => sc.waits data.scanId) + sc.leftEntries := by
    rw [List.countP_eq_length_filter, List.length_eq_countP_add_countP fun data =>
      sc.waits data.scanId, List.countP_filter, List.countP_filter]
    congr 1
    · apply List.countP_congr
      intro data _
      simp only [waits, undropped]
      grind
    · apply List.countP_congr
      intro data hd
      -- an entry has a state, and its scan does not run
      have hknown := hq.known data hd
      have hrun : sc.state data.scanId ≠ some .running := fun hr =>
        h.running _ hr (List.mem_map_of_mem hd)
      cases hst : sc.state data.scanId with
      | none => exact absurd hst hknown
      | some st => cases st <;> simp_all [waits, isOver, undropped]
  rw [h.pendingScans, hsplit, h.countP_waits hq hstop, Nat.cast_add]

/-- The answer `QueueFull` before the shutdown. -/
theorem submitScanRoot_queueFull (hstop : sc.stopFlag = false) :
    (sc.submitScanRoot cfg id rootPath).1 = .queueFull ↔
      toInt (queueMaxSize cfg) ≤ sc.pendingScans := by
  unfold submitScanRoot
  split_ifs with hs hfull hover hnew
  · simp [hs] at hstop
  all_goals simp [hfull]

end Scheduler

/-- Before the shutdown `submit_scan_root` answers `QueueFull` exactly when `QUEUE_MAX_SIZE` scans
are PENDING or DISPATCHING, if and only if, while they are fewer, they and the entries of scans
that are over are together fewer than `QUEUE_MAX_SIZE` converted to an `int`. -/
theorem queue_full_iff (h : (daemon cfg tree maxScanId).Reachable m)
    (hstop : m.shared.scheduler.stopFlag = false) (id : ScanId) (rootPath : Path) :
    let sc := m.shared.scheduler
    ((sc.submitScanRoot cfg id rootPath).1 = .queueFull ↔
        Scheduler.queueMaxSize cfg ≤ sc.waitingScans) ↔
      (sc.waitingScans < Scheduler.queueMaxSize cfg →
        (sc.waitingScans + sc.leftEntries : ℤ) <
          Scheduler.toInt (Scheduler.queueMaxSize cfg)) := by
  intro sc
  have hcount := (entries_of_reachable h hstop).pendingScans_eq (sound_of_reachable h).queued hstop
  have hle := Scheduler.toInt_le (Scheduler.queueMaxSize cfg)
  rw [Scheduler.submitScanRoot_queueFull hstop, hcount]
  constructor
  · intro hright hfew
    by_contra hmore
    exact absurd (hright.mp (not_lt.mp hmore)) (not_le.mpr hfew)
  · intro hfit
    constructor
    · intro hfull
      by_contra hfew
      exact absurd (hfit (not_le.mp hfew)) (not_lt.mpr hfull)
    · intro hmany
      have hmany : (Scheduler.queueMaxSize cfg : ℤ) ≤ m.shared.scheduler.waitingScans :=
        Int.ofNat_le.mpr hmany
      omega

/-- With one place, a second root is refused while the first one waits. -/
theorem queue_full_waiting :
    let D := daemon narrowConfig (fun _ => .file 0 0) 0
    let sc := (D.run (narrowServe (.submit ['/', 'a']) 2)).shared.scheduler
    sc.waitingScans = 1 ∧ ((sc.submitScanRoot narrowConfig 2 ['/', 'b']).1 = .queueFull ↔
      Scheduler.queueMaxSize narrowConfig ≤ sc.waitingScans) :=
  ⟨by decide, (queue_full_iff (System.reachable_run _ _) (by decide) 2 ['/', 'b']).mpr (by decide)⟩

/-- A daemon that lets 2³¹ roots wait. -/
def wideConfig : Config := { smallConfig 1 1 1 with queueMaxSize := 2 ^ 31 }

/-- The only scan has been canceled during its dispatch, and the queue of one place is still full;
a queue of 2³¹ places is full when there is no scan at all. -/
theorem queue_full_early :
    (∃ m, (daemon narrowConfig (fun _ => .file 0 0) 0).Reachable m ∧
      m.shared.scheduler.stopFlag = false ∧ Scheduler.queueMaxSize narrowConfig = 1 ∧
      m.shared.scheduler.state 1 = some .canceled ∧ m.shared.scheduler.waitingScans = 0 ∧
      (m.shared.scheduler.submitScanRoot narrowConfig 2 ['/', 'b']).1 = .queueFull) ∧
    ∃ m, (daemon wideConfig (fun _ => .file 0 0) 0).Reachable m ∧
      m.shared.scheduler.stopFlag = false ∧ Scheduler.queueMaxSize wideConfig = 2 ^ 31 ∧
      m.shared.scheduler.waitingScans = 0 ∧
      (m.shared.scheduler.submitScanRoot wideConfig 1 ['/', 'a']).1 = .queueFull :=
  ⟨⟨_, System.reachable_run _ (narrowServe (.submit ['/', 'a']) 2 ++
      [(.run, ⟨none, 0, false⟩)] ++ narrowServe (.cancel 1) 1),
    by decide, by decide, by decide, by decide, by decide⟩,
   ⟨_, System.reachable_run _ [], by decide, by decide, by decide, by decide⟩⟩

end ScanDaemon
