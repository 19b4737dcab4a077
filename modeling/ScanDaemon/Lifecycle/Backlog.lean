import ScanDaemon.Lifecycle.Entries
import ScanDaemon.Lifecycle.Order

/-! # The length of the pending queue

`submit_scan_root` compares `QUEUE_MAX_SIZE` with `pending_scans`, which `cancel`
lowers at once, while the entry of the canceled scan stays in the queue until
`run` gets to it. The queue keeps to its bound as long as no root is admitted
before `run` has removed the dropped entries.
-/

namespace ScanDaemon

open Interleave

variable {cfg : Config} {tree : ScanId → FsNode} {σ σ' : Shared cfg} {x : Input} {f : Frame}
  {fs : List Frame} {maxScanId : ScanId} {m m' : DaemonState cfg} {a : Thread cfg × Input}

namespace Scheduler

variable {sc : Scheduler} {id : ScanId} {rootPath : Path}

/-- The entries that `cancel` has dropped and `run` has still to remove. -/
def droppedEntries (sc : Scheduler) : ℕ :=
  sc.pendingQueue.countP fun data => sc.state data.scanId = some .dropped

/-- The tests of `submit_scan_root`. -/
def Admits (cfg : Config) (sc : Scheduler) (p : ScanId × Path) : Prop :=
  sc.stopFlag = false ∧ sc.pendingScans < toInt (queueMaxSize cfg) ∧
    sc.checkNonOverlapPath p.2 = true ∧ sc.state p.1 = none

instance (sc : Scheduler) (p : ScanId × Path) : Decidable (Admits cfg sc p) :=
  inferInstanceAs (Decidable (_ ∧ _ ∧ _ ∧ _))

theorem submitScanRoot_of_admits (h : Admits cfg sc (id, rootPath)) :
    sc.submitScanRoot cfg id rootPath = (.ok, sc.enqueue id rootPath) := by
  obtain ⟨hstop, hfull, hover, hnew⟩ := h
  have hroom : ¬toInt (queueMaxSize cfg) ≤ sc.pendingScans := not_le.mpr hfull
  simp_all [submitScanRoot]

theorem submitScanRoot_of_not_admits (h : ¬Admits cfg sc (id, rootPath)) :
    (sc.submitScanRoot cfg id rootPath).1 ≠ .ok ∧ (sc.submitScanRoot cfg id rootPath).2 = sc := by
  unfold submitScanRoot
  split_ifs with hstop hfull hover hnew
  · exact ⟨by simp, rfl⟩
  · exact ⟨by simp, rfl⟩
  · exact ⟨by simp, rfl⟩
  · exact ⟨by simp, rfl⟩
  · refine absurd ⟨?_, not_le.mp hfull, ?_, ?_⟩ h
    · simpa using hstop
    · simpa using hover
    · simpa using hnew

/-- The queue consists of the pending entries and the dropped ones. -/
theorem Entries.length_eq {current : Option PendingRoot} (h : sc.Entries current) :
    (sc.pendingQueue.length : ℤ) = sc.pendingScans + sc.droppedEntries := by
  rw [h.pendingScans, List.length_eq_countP_add_countP sc.undropped, droppedEntries]
  simp [undropped]

/-- A converted size is not larger than the size. -/
theorem toInt_le (n : ℕ) : toInt n ≤ n := by
  unfold toInt
  rw [Int.bmod_def]
  split_ifs <;> omega

theorem length_popFront_le : (sc.popFront id).pendingQueue.length ≤ sc.pendingQueue.length := by
  rw [popFront_pendingQueue]
  cases sc.pendingQueue with
  | nil => exact le_rfl
  | cons data rest =>
    simp only
    split_ifs
    · exact Nat.le_succ _
    · exact le_rfl

/-- The queue and its gauge keep to the bound. -/
def Bounded (cfg : Config) (sc : Scheduler) : Prop :=
  sc.pendingQueue.length ≤ queueMaxSize cfg ∧ sc.scanPending ≤ queueMaxSize cfg

theorem Bounded.popFront (h : sc.Bounded cfg) : (sc.popFront id).Bounded cfg :=
  ⟨length_popFront_le.trans h.1, (Nat.sub_le _ _).trans h.2⟩

theorem Bounded.notifyScanFinished (h : sc.Bounded cfg) :
    (sc.notifyScanFinished id).Bounded cfg := by
  unfold Scheduler.notifyScanFinished
  split <;> exact h

theorem Bounded.removePending (h : sc.Bounded cfg) : (sc.removePending id).Bounded cfg :=
  h.popFront

end Scheduler

/-- Only an admission makes the queue longer. -/
theorem Step.bounded (hs : Step tree σ x f σ' fs) (hf : f.drawn = none)
    (h : σ.scheduler.Bounded cfg) : σ'.scheduler.Bounded cfg := by
  cases hs with
  | http hs =>
    cases hs with
    | accept => cases hf
    | _ => exact h
  | run hs =>
    cases hs with
    | skip_dropped => exact h.popFront
    | skip | commit_canceled | commit_canceled_refused | commit_running | commit_failed =>
      exact h.removePending
    | _ => exact h
  | finish hs =>
    cases hs with
    | notify_finished => exact h.notifyScanFinished
    | _ => exact h
  | main hs =>
    cases hs with
    | shutdown => exact ⟨Nat.zero_le _, Nat.zero_le _⟩
    | _ => exact h
  | workForever hs | workerJob hs | result hs => cases hs <;> exact h
  | cancelScan => exact h

/-- No root is admitted while an entry is queued that `cancel` has dropped. -/
def AdmitsUndropped (m : DaemonState cfg) (a : Thread cfg × Input) : Prop :=
  ∀ f ∈ m.top a.1, ∀ p ∈ f.drawn, Scheduler.Admits cfg m.shared.scheduler p →
    ∀ data ∈ m.shared.scheduler.pendingQueue,
      m.shared.scheduler.state data.scanId ≠ some .dropped

instance (m : DaemonState cfg) (a : Thread cfg × Input) : Decidable (AdmitsUndropped m a) :=
  inferInstanceAs (Decidable (∀ f ∈ m.top a.1, ∀ p ∈ f.drawn, _ → _))

/-- An admission keeps the bound exactly if the dropped entries leave a place. -/
theorem bounded_enqueue_iff {sc : Scheduler} {current : Option PendingRoot} {id : ScanId}
    {rootPath : Path} (h : sc.Entries current) :
    (sc.enqueue id rootPath).Bounded cfg ↔
      sc.pendingScans + sc.droppedEntries < Scheduler.queueMaxSize cfg := by
  have hlen := h.length_eq
  have hgauge := h.scanPending
  simp only [Scheduler.Bounded, Scheduler.enqueue_pendingQueue, Scheduler.enqueue_scanPending,
    List.length_append, List.length_singleton]
  omega

/-- Without dropped entries the test of `submit_scan_root` counts the whole queue. -/
theorem bounded_enqueue {sc : Scheduler} {current : Option PendingRoot} {id : ScanId}
    {rootPath : Path} (h : sc.Entries current) (hadm : sc.Admits cfg (id, rootPath))
    (hnone : ∀ data ∈ sc.pendingQueue, sc.state data.scanId ≠ some .dropped) :
    (sc.enqueue id rootPath).Bounded cfg := by
  have hzero : sc.droppedEntries = 0 := by
    rw [Scheduler.droppedEntries, List.countP_eq_zero]
    simpa using hnone
  have hroom : sc.pendingScans < Scheduler.queueMaxSize cfg :=
    hadm.2.1.trans_le (Scheduler.toInt_le _)
  rw [bounded_enqueue_iff h, hzero]
  omega

/-- A submission that is not admitted changes nothing. -/
theorem exec_locked_of_not_admits {id : ScanId} {rootPath : Path}
    (h : ¬Scheduler.Admits cfg σ.scheduler (id, rootPath))
    (he : exec tree σ x (.http (.locked id rootPath)) = some (σ', fs)) : σ' = σ := by
  obtain ⟨hne, hsc⟩ := Scheduler.submitScanRoot_of_not_admits h
  rcases hsub : σ.scheduler.submitScanRoot cfg id rootPath with ⟨result, sc⟩
  rw [hsub] at hne hsc
  obtain rfl : sc = σ.scheduler := hsc
  simp only [exec, execHttp, hsub] at he
  cases result with
  | ok => exact absurd rfl hne
  | _ => cases he; rfl

theorem bounded_step (hr : (daemon cfg tree maxScanId).Reachable m)
    (hs : (daemon cfg tree maxScanId).step m a = some m') (hok : AdmitsUndropped m a)
    (h : m.shared.scheduler.Bounded cfg) : m'.shared.scheduler.Bounded cfg := by
  obtain ⟨f, rest, σ', fs, hf, he, rfl⟩ := Machine.step_eq_some.mp hs
  cases hd : f.drawn with
  | none => exact (step_of_exec he).bounded hd h
  | some p =>
    obtain ⟨id, rootPath⟩ := p
    obtain rfl : f = .http (.locked id rootPath) := by
      cases f with
      | http pc => cases pc <;> simp [Frame.drawn] at hd; simp [hd]
      | _ => cases hd
    by_cases hadm : Scheduler.Admits cfg m.shared.scheduler (id, rootPath)
    · have hnone := hok _ (Machine.top_of_stack hf) _ rfl hadm
      simp only [exec, execHttp, Scheduler.submitScanRoot_of_admits hadm, Option.some.injEq,
        Prod.mk.injEq] at he
      rw [← he.1]
      exact bounded_enqueue (entries_of_reachable hr hadm.1) hadm hnone
    · obtain rfl := exec_locked_of_not_admits hadm he
      exact h

/-- In the runs in which no root is admitted while a dropped entry is queued, neither the pending
queue nor its gauge ever exceeds `QUEUE_MAX_SIZE`. -/
theorem pending_queue_bounded (h : (daemon cfg tree maxScanId).Reach AdmitsUndropped m) :
    m.shared.scheduler.pendingQueue.length ≤ Scheduler.queueMaxSize cfg ∧
      m.shared.scheduler.scanPending ≤ Scheduler.queueMaxSize cfg := by
  refine h.invariant (P := fun m => m.shared.scheduler.Bounded cfg) ?_ fun m a m' hr hok hs ih =>
    bounded_step hr.reachable hs hok ih
  exact ⟨Nat.zero_le _, Nat.zero_le _⟩

/-! ## A queue of one place -/

/-- A daemon with one HTTP worker that lets one root wait. -/
def narrowConfig : Config := { smallConfig 1 1 1 with queueMaxSize := 1 }

/-- The HTTP worker serves a request in the given number of steps after its arrival. -/
def narrowServe (request : Request) (count : ℕ) : List (Thread narrowConfig × Input) :=
  (.http ⟨0, Nat.one_pos⟩, ⟨some request, 0, false⟩) ::
    List.replicate count (.http ⟨0, Nat.one_pos⟩, ⟨none, 0, false⟩)

/-- The second root is refused while the first one waits. -/
theorem pending_queue_bounded_full :
    let D := daemon narrowConfig (fun _ => .file 0 0) 0
    let m := D.run (narrowServe (.submit ['/', 'a']) 2 ++ narrowServe (.submit ['/', 'b']) 2)
    m.shared.scheduler.entryIds = [1] ∧
      m.shared.scheduler.pendingQueue.length ≤ Scheduler.queueMaxSize narrowConfig :=
  ⟨by decide, (pending_queue_bounded (System.reach_run (by decide))).1⟩

/-- The second root is admitted after the first one has been canceled, and both entries are in the
queue of one place. -/
theorem pending_queue_exceeds :
    ∃ m, (daemon narrowConfig (fun _ => .file 0 0) 0).Reachable m ∧
      Scheduler.queueMaxSize narrowConfig = 1 ∧ m.shared.scheduler.entryIds = [1, 2] ∧
      m.shared.scheduler.scanPending = 2 :=
  ⟨_, System.reachable_run _ (narrowServe (.submit ['/', 'a']) 2 ++ narrowServe (.cancel 1) 1 ++
    narrowServe (.submit ['/', 'b']) 2), by decide, by decide, by decide⟩

end ScanDaemon
