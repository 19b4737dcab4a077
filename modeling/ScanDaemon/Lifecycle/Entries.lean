import ScanDaemon.Lifecycle.Roots

/-! # The entries of the pending queue

An entry is removed lazily: `cancel` only marks its scan as dropped and lowers
`pending_scans`, and `run` removes it when it comes to the front. Before the
shutdown `pending_scans` counts the entries that are not dropped, the gauge
counts all of them, and the scan that `run` is dispatching is at the front.
-/

namespace ScanDaemon

open Interleave

variable {cfg : Config} {tree : ScanId → FsNode} {σ σ' : Shared cfg} {x : Input} {f : Frame}
  {fs : List Frame} {maxScanId : ScanId} {m m' : DaemonState cfg} {a : Thread cfg × Input}

/-- The entry has not been dropped by `cancel`. -/
def Scheduler.undropped (sc : Scheduler) (data : PendingRoot) : Bool :=
  decide (sc.state data.scanId ≠ some .dropped)

/-- The ids of the entries. -/
def Scheduler.entryIds (sc : Scheduler) : List ScanId := sc.pendingQueue.map PendingRoot.scanId

/-- The books of the pending queue while `run` is dispatching `current`. -/
structure Scheduler.Entries (sc : Scheduler) (current : Option PendingRoot) : Prop where
  distinct : sc.entryIds.Nodup
  dispatching : ∀ id, sc.state id = some .dispatching → ∃ data ∈ current, data.scanId = id
  running : ∀ id, sc.state id = some .running → id ∉ sc.entryIds
  pendingScans : sc.pendingScans = sc.pendingQueue.countP sc.undropped
  scanPending : sc.scanPending = sc.pendingQueue.length

namespace Scheduler.Entries

variable {sc : Scheduler} {current : Option PendingRoot} {id : ScanId} {st : RequestState}
  {data : PendingRoot} {rest : List PendingRoot}

theorem addRunning (h : sc.Entries current) : sc.addRunning.Entries current :=
  ⟨h.distinct, h.dispatching, h.running, h.pendingScans, h.scanPending⟩

theorem subRunning (h : sc.Entries current) : sc.subRunning.Entries current :=
  ⟨h.distinct, h.dispatching, h.running, h.pendingScans, h.scanPending⟩

/-- While `run` dispatches nothing, no scan is `DISPATCHING`. -/
theorem start (h : sc.Entries none) (current : Option PendingRoot) : sc.Entries current where
  distinct := h.distinct
  dispatching id hid := by
    obtain ⟨_, hd, -⟩ := h.dispatching id hid
    cases hd
  running := h.running
  pendingScans := h.pendingScans
  scanPending := h.scanPending

/-- A dispatch is over once its scan has left the state `DISPATCHING`. -/
theorem finish (h : sc.Entries (some data)) (hst : sc.state data.scanId ≠ some .dispatching) :
    sc.Entries none where
  distinct := h.distinct
  dispatching id hid := by
    obtain ⟨_, ⟨⟩, rfl⟩ := h.dispatching id hid
    exact absurd hid hst
  running := h.running
  pendingScans := h.pendingScans
  scanPending := h.scanPending

/-- A change of state that neither drops an entry nor runs the scan of one. -/
theorem setState (h : sc.Entries current) (hold : sc.state id ≠ some .dropped)
    (hst : st ≠ .dropped) (hrun : st = .running → id ∉ sc.entryIds)
    (hdisp : st = .dispatching → ∃ data ∈ current, data.scanId = id) :
    (sc.setState id st).Entries current where
  distinct := h.distinct
  dispatching k hk := by
    by_cases hid : k = id
    · subst hid
      exact hdisp (by simpa using hk)
    · exact h.dispatching k (by simpa [hid] using hk)
  running k hk := by
    by_cases hid : k = id
    · subst hid
      exact hrun (by simpa using hk)
    · exact h.running k (by simpa [hid] using hk)
  pendingScans := by
    have hu : (sc.setState id st).undropped = sc.undropped := by
      ext data
      by_cases hid : data.scanId = id <;> simp [undropped, hid, hst, hold]
    rw [hu]
    exact h.pendingScans
  scanPending := h.scanPending

theorem enqueue {root : Path} (h : sc.Entries current) (hq : sc.Queued current)
    (hn : sc.state id = none) : (sc.enqueue id root).Entries current := by
  have hid : id ∉ sc.entryIds := by
    intro hm
    obtain ⟨data, hd, rfl⟩ := List.mem_map.mp hm
    exact hq.known data hd hn
  have hcount : sc.pendingQueue.countP (sc.enqueue id root).undropped =
      sc.pendingQueue.countP sc.undropped := by
    apply List.countP_congr
    intro data hd
    have hne : data.scanId ≠ id := fun he => hid (he ▸ List.mem_map_of_mem hd)
    simp [undropped, hne]
  constructor
  · simpa [entryIds, List.nodup_append] using ⟨h.distinct, fun data hd he =>
      hid (he ▸ List.mem_map_of_mem hd)⟩
  · intro k hk
    by_cases he : k = id
    · simp [he] at hk
    · exact h.dispatching k (by simpa [he] using hk)
  · intro k hk hm
    by_cases he : k = id
    · simp [he] at hk
    · refine h.running k (by simpa [he] using hk) ?_
      simpa [entryIds, he] using hm
  · rw [enqueue_pendingScans, enqueue_pendingQueue, List.countP_append, hcount, h.pendingScans]
    simp [undropped]
  · simp [h.scanPending]

/-- Dropping a scan that has an entry lowers `pending_scans` by that entry. -/
theorem drop (h : sc.Entries current) (hq : sc.Queued current) (hst : sc.state id = some .pending) :
    (sc.drop id).Entries current := by
  obtain ⟨data, hd, rfl⟩ := hq.pending id hst
  obtain ⟨pre, post, hsplit⟩ := List.append_of_mem hd
  have hnodup := h.distinct
  rw [entryIds, hsplit, List.map_append, List.map_cons, List.nodup_middle, List.nodup_cons,
    List.mem_append, not_or] at hnodup
  obtain ⟨⟨hpre, hpost⟩, -⟩ := hnodup
  have hkeep : ∀ l : List PendingRoot, data.scanId ∉ l.map PendingRoot.scanId →
      l.countP (sc.drop data.scanId).undropped = l.countP sc.undropped := by
    intro l hl
    apply List.countP_congr
    intro d hd
    have hne : d.scanId ≠ data.scanId := fun he => hl (he ▸ List.mem_map_of_mem hd)
    simp [undropped, hne]
  constructor
  · exact h.distinct
  · intro k hk
    by_cases hid : k = data.scanId
    · simp [hid] at hk
    · exact h.dispatching k (by simpa [hid] using hk)
  · intro k hk
    by_cases hid : k = data.scanId
    · simp [hid] at hk
    · exact h.running k (by simpa [hid] using hk)
  · have hp := h.pendingScans
    rw [hsplit, List.countP_append, List.countP_cons_of_pos (by simp [undropped, hst])] at hp
    rw [drop_pendingScans, hp, drop_pendingQueue, hsplit, List.countP_append,
      List.countP_cons_of_neg (by simp [undropped]), hkeep pre hpre, hkeep post hpost]
    omega
  · exact h.scanPending

/-- The scan of the front entry has no other entry. -/
theorem not_mem_rest (h : sc.Entries current) (hq : sc.pendingQueue = data :: rest) :
    data.scanId ∉ rest.map PendingRoot.scanId := by
  have hnodup := h.distinct
  rw [entryIds, hq] at hnodup
  exact (List.nodup_cons.mp hnodup).1

/-- What is left when the front entry has been removed. -/
theorem front_removed (h : sc.Entries current) (hq : sc.pendingQueue = data :: rest) :
    (sc.popFront data.scanId).pendingQueue = rest ∧ (sc.popFront data.scanId).entryIds.Nodup ∧
      (∀ id, sc.state id = some .running → id ∉ (sc.popFront data.scanId).entryIds) ∧
      (sc.popFront data.scanId).scanPending = rest.length := by
  have hrest : (sc.popFront data.scanId).pendingQueue = rest := by simp [hq]
  have hids : sc.entryIds = data.scanId :: (sc.popFront data.scanId).entryIds := by
    rw [entryIds, entryIds, hrest, hq, List.map_cons]
  refine ⟨hrest, ?_, fun id hid hm => ?_, ?_⟩
  · have hnodup := h.distinct
    rw [hids] at hnodup
    exact hnodup.of_cons
  · apply h.running id hid
    rw [hids]
    exact List.mem_cons_of_mem _ hm
  · rw [popFront_scanPending, h.scanPending, hq]
    rfl

/-- `run` removes a dropped entry, which is not counted. -/
theorem popFront (h : sc.Entries current) (hq : sc.pendingQueue = data :: rest)
    (hst : sc.state data.scanId = some .dropped) : (sc.popFront data.scanId).Entries current := by
  obtain ⟨hrest, hnodup, hrun, hgauge⟩ := h.front_removed hq
  refine ⟨hnodup, h.dispatching, hrun, ?_, hrest ▸ hgauge⟩
  have hp := h.pendingScans
  rw [hq, List.countP_cons_of_neg (by simp [undropped, hst])] at hp
  rw [hrest]
  exact hp

/-- `run` removes an entry that is counted. -/
theorem removePending (h : sc.Entries current) (hq : sc.pendingQueue = data :: rest)
    (hst : sc.state data.scanId ≠ some .dropped) :
    (sc.removePending data.scanId).Entries current := by
  obtain ⟨hrest, hnodup, hrun, hgauge⟩ := h.front_removed hq
  refine ⟨hnodup, h.dispatching, hrun, ?_, by rw [← hrest] at hgauge; exact hgauge⟩
  have hp := h.pendingScans
  rw [hq, List.countP_cons_of_pos (by simp [undropped, hst])] at hp
  have hkeep : (sc.removePending data.scanId).pendingQueue.countP
      (sc.removePending data.scanId).undropped = rest.countP sc.undropped := congrArg _ hrest
  rw [hkeep, removePending_pendingScans, hp]
  omega

theorem notifyScanFinished (h : sc.Entries current) :
    (sc.notifyScanFinished id).Entries current := by
  unfold Scheduler.notifyScanFinished
  split
  · next hst => exact h.subRunning.setState (by simp [hst]) (by simp) (by simp) (by simp)
  · exact h.subRunning
  · next hst => exact h.setState (by simp [hst]) (by simp) (by simp) (by simp)
  · exact h

/-- The threads other than `run` keep the books. -/
theorem step (h : σ.scheduler.Entries current) (hq : σ.scheduler.Queued current)
    (hs : Step tree σ x f σ' fs) (hf : ∀ pc, f ≠ .run pc)
    (hstop : σ'.scheduler.stopFlag = false) : σ'.scheduler.Entries current := by
  cases hs with
  | run => exact absurd rfl (hf _)
  | http hs =>
    cases hs with
    | draw =>
      exact ⟨h.distinct, h.dispatching, h.running, h.pendingScans, h.scanPending⟩
    | accept _ _ hn => exact h.enqueue hq hn
    | cancel_running hst =>
      apply h.setState
      · rcases hst with hst | hst <;> simp [hst]
      · simp
      · simp
      · simp
    | cancel_pending hst => exact h.drop hq hst
    | _ => exact h
  | finish hs =>
    cases hs with
    | notify_finished => exact h.notifyScanFinished
    | notify_dispatch =>
      exact ⟨h.distinct, h.dispatching, h.running, h.pendingScans, h.scanPending⟩
    | _ => exact h
  | result hs =>
    cases hs with
    | notify_export =>
      exact ⟨h.distinct, h.dispatching, h.running, h.pendingScans, h.scanPending⟩
    | _ => exact h
  | main hs =>
    cases hs with
    | shutdown => exact absurd hstop (by simp [Scheduler.shutdown])
    | _ => exact h
  | workForever hs => cases hs <;> exact h
  | workerJob hs => cases hs <;> exact h
  | cancelScan => exact h

/-- The entry that `run` has picked is the first one. -/
theorem front (hq : sc.Queued (some data)) (hstop : sc.stopFlag = false) :
    ∃ rest, sc.pendingQueue = data :: rest :=
  List.head?_eq_some_iff.mp (hq.front hstop data rfl)

/-- `run` keeps the books. -/
theorem step_run {pc : RunPc} (h : σ.scheduler.Entries pc.data)
    (hq : σ.scheduler.Queued pc.data) (hs : RunStep tree σ x pc σ' fs)
    (hstop : σ.scheduler.stopFlag = false) : σ'.scheduler.Entries (runData fs) := by
  cases hs with
  | stop hs => exact absurd hs (by simp [hstop])
  | @skip_dropped data rest _ hd hst =>
    refine h.popFront hd (hst.resolve_left (hq.known data ?_))
    simp [hd]
  | skip _ hd hst _ hne => exact h.removePending hd (by simpa [hst] using hne)
  | @dispatch data _ _ _ _ hd hst =>
    exact (h.start (some data)).setState (by simp [hst]) (by simp) (by simp)
      fun _ => ⟨data, rfl, rfl⟩
  | commit_canceled hst =>
    obtain ⟨rest, hd⟩ := front hq hstop
    exact ((h.removePending hd (by simp [hst])).finish (by simp [hst])).addRunning
  | commit_canceled_refused hst =>
    obtain ⟨rest, hd⟩ := front hq hstop
    exact (h.removePending hd (by simp [hst])).finish (by simp [hst])
  | @commit_running data _ hst =>
    obtain ⟨rest, hd⟩ := front hq hstop
    have hp := (h.removePending hd (by simp [hst])).addRunning
    have hnot : data.scanId ∉ (σ.scheduler.removePending data.scanId).addRunning.entryIds := by
      have hrest : (σ.scheduler.removePending data.scanId).addRunning.pendingQueue = rest := by
        simp [hd]
      rw [Scheduler.entryIds, hrest]
      exact h.not_mem_rest hd
    have hr := hp.setState (by simp [hst]) (show RequestState.running ≠ .dropped by simp)
      (fun _ => hnot) (by simp)
    exact hr.finish (by simp)
  | @commit_failed data hst =>
    obtain ⟨rest, hd⟩ := front hq hstop
    exact ((h.removePending hd (by simp [hst])).setState (by simp [hst]) (by simp) (by simp)
      (by simp)).finish (by simp)
  | @commit_pending data hst =>
    have hold : σ.scheduler.state data.scanId ≠ some .dropped := by simp [hst]
    have hr := h.setState hold (show RequestState.pending ≠ .dropped by simp) (by simp) (by simp)
    have hn := hr.finish (by simp)
    exact ⟨hn.distinct, hn.dispatching, hn.running, hn.pendingScans, hn.scanPending⟩
  | commit_other _ hne => exact h.finish hne
  | _ => exact h

end Scheduler.Entries

theorem entries_initial :
    (daemon cfg tree maxScanId).init.shared.scheduler.Entries
      (runData ((daemon cfg tree maxScanId).init.stack .run)) := by
  constructor
  · exact List.nodup_nil
  · intro id hid
    cases hid
  · intro id hid
    cases hid
  · rfl
  · rfl

/-- The books of the pending queue are right until the shutdown. -/
theorem entries_of_reachable (h : (daemon cfg tree maxScanId).Reachable m) :
    m.shared.scheduler.stopFlag = false →
      m.shared.scheduler.Entries (runData (m.stack .run)) := by
  refine h.invariant (P := fun m => m.shared.scheduler.stopFlag = false →
    m.shared.scheduler.Entries (runData (m.stack .run))) (fun _ => entries_initial) ?_
  intro m a m' hr _ hs ih hstop'
  have hsound := sound_of_reachable hr
  have hq := hsound.queued
  rcases hsound.step_cases hs with ⟨pc, fs, R, hrun, hst, hrun', -⟩ |
    ⟨f, rest, fs, R, hf, hsh, hst, hne, hpc, -⟩
  · have hstop := (Step.run hst).stopFlag_eq_false hstop'
    have he := ih hstop
    rw [hrun] at hq he
    rw [hrun']
    exact he.step_run hq hst hstop
  · have he := ih (hst.stopFlag_eq_false hstop')
    rw [runData] at hq he ⊢
    rw [hpc]
    exact he.step hq hst hne hstop'

/-- The pending queue before the shutdown: the ids are distinct, the pending scans and the one
that is dispatched have one entry each, the latter the first one, no running scan has an entry,
`pending_scans` counts the entries that are not dropped and `scan_pending` all of them, and `run`
finds the entry that it has picked at the front until it has committed. -/
theorem pending_queue_kept (h : (daemon cfg tree maxScanId).Reachable m)
    (hstop : m.shared.scheduler.stopFlag = false) :
    let sc := m.shared.scheduler
    sc.entryIds.Nodup ∧
    (∀ id, sc.state id = some .pending ∨ sc.state id = some .dispatching →
      sc.entryIds.count id = 1) ∧
    (∀ id id', sc.state id = some .dispatching → sc.state id' = some .dispatching → id = id') ∧
    (∀ id, sc.state id = some .dispatching → sc.entryIds.head? = some id) ∧
    (∀ id, sc.state id = some .running → id ∉ sc.entryIds) ∧
    sc.pendingScans =
      sc.pendingQueue.countP (fun data => sc.state data.scanId ≠ some .dropped) ∧
    sc.scanPending = sc.pendingQueue.length ∧
    ∀ pc data, .run pc ∈ m.frames → data ∈ pc.data → sc.pendingQueue.head? = some data := by
  intro sc
  have hsound := sound_of_reachable h
  have he := entries_of_reachable h hstop
  have hq := hsound.queued
  have hhead : ∀ id, sc.state id = some .dispatching → sc.entryIds.head? = some id := by
    intro id hid
    obtain ⟨data, hd, rfl⟩ := he.dispatching id hid
    rw [Scheduler.entryIds, List.head?_map, hq.front hstop data hd]
    rfl
  refine ⟨he.distinct, fun id hid => ?_, fun id id' hid hid' => ?_, hhead, he.running,
    he.pendingScans, he.scanPending, fun pc data hpc hd => ?_⟩
  · apply List.count_eq_one_of_mem he.distinct
    rcases hid with hid | hid
    · obtain ⟨data, hd, rfl⟩ := hq.pending id hid
      exact List.mem_map_of_mem hd
    · exact List.mem_of_mem_head? (hhead id hid)
  · exact Option.some.inj ((hhead id hid).symm.trans (hhead id' hid'))
  · apply hq.front hstop data
    rw [runData, hsound.runPc_eq hpc]
    exact hd

/-- The first of two scans is dropped and the second one dispatched: both entries are there
until `run` has passed the first one. -/
theorem pending_queue_kept_dropped :
    let D := daemon (smallConfig 1 1 1) (fun _ => .file 0 0) 0
    let m := D.run (serve (.submit ['/', 'a']) 2 ++ serve (.submit ['/', 'b']) 2 ++
      serve (.cancel 1) 1)
    m.shared.scheduler.state 1 = some .dropped ∧ m.shared.scheduler.entryIds.count 2 = 1 ∧
      m.shared.scheduler.scanPending = 2 :=
  have h := pending_queue_kept (System.reachable_run (daemon (smallConfig 1 1 1)
    (fun _ => .file 0 0) 0) (serve (.submit ['/', 'a']) 2 ++ serve (.submit ['/', 'b']) 2 ++
      serve (.cancel 1) 1)) (by decide)
  ⟨by decide, h.2.1 2 (by decide), h.2.2.2.2.2.2.1.trans (by decide)⟩

end ScanDaemon
