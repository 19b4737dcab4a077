import ScanDaemon.Traversal.Completion
import ScanDaemon.Traversal.Shutdown

/-! # What an idle daemon has exported

When the workers and the result thread have nothing left to do, every scan that
the pool has taken is exported and its root is released. The result thread
disturbs the daemon at most for want of a row that a worker is about to store.
-/

namespace ScanDaemon

open Interleave

variable {cfg : Config} {tree : ScanId → FsNode} {σ σ' : Shared cfg} {x : Input} {f : Frame}
  {fs : List Frame} {maxScanId : ScanId} {m m' : DaemonState cfg} {a : Thread cfg × Input}
  {s : ScanId}

/-- As long as the daemon is not disturbed, no row has been missing. -/
theorem rowMissing_of_reach (h : (daemon cfg tree maxScanId).Reach Undisturbed m) :
    m.shared.history.rowMissing = false := by
  refine h.invariant (P := fun m : DaemonState cfg => m.shared.history.rowMissing = false) rfl ?_
  intro n a n' _ hok hs hk
  obtain ⟨f, rest, fs, R, hf, hst, -⟩ := daemon_step hs
  have hdis := hok f (Machine.top_of_stack hf)
  generalize n'.shared = τ at hst
  cases hst with
  | result hst =>
    cases hst with
    | row_missing hl => exact absurd hl hdis
    | _ => exact hk
  | http hst | run hst | finish hst | workForever hst | workerJob hst | main hst =>
    cases hst <;> exact hk
  | cancelScan => exact hk

/-! ## What stands below the top of a worker's stack -/

/-- A frame that waits for a call to return. -/
def Frame.Waits : Frame → Prop
  | .workerJob _ (.loop _) | .workForever => True
  | _ => False

theorem Step.tail_waits (hs : Step tree σ x f σ' fs) (hf : f.IsJob ∨ f = .workForever) :
    ∀ g ∈ fs.tail, g.Waits := by
  cases hs with
  | workForever hs => cases hs <;> simp [Frame.Waits]
  | workerJob hs => cases hs <;> simp [Frame.Waits]
  | finish hs => cases hs <;> simp
  | http hs | run hs | result hs | main hs =>
    rcases hf with hf | hf
    · exact hf.elim
    · cases hf
  | cancelScan => simp

/-- Below its top, the stack of a worker has only frames that wait. -/
theorem tail_waits_of_reachable (h : (daemon cfg tree maxScanId).Reachable m)
    (j : Fin cfg.scanPoolNumThreads) : ∀ g ∈ (m.stack (.worker j)).tail, g.Waits := by
  refine h.invariant (P := fun m : DaemonState cfg => ∀ g ∈ (m.stack (.worker j)).tail, g.Waits)
    ?_ ?_
  · simp [daemon, initialStack]
  · intro n a n' hn _ hs hk
    obtain ⟨f, rest, fs, R, hf, hst, hm', -, -⟩ := daemon_step hs
    by_cases hi : a.1 = .worker j
    · have hsh := (sound_of_reachable hn).shape a.1
      rw [hi] at hf hsh hm'
      rw [hf] at hk hsh
      rw [hm', Function.update_self]
      have hfs := hst.tail_waits (WorkerShape.isJob hsh)
      cases fs with
      | nil => exact fun g hg => hk g (List.mem_of_mem_tail hg)
      | cons g fs =>
        intro g hg
        rcases List.mem_append.mp hg with hg | hg
        · exact hfs g hg
        · exact hk g hg
    · rw [hm', Function.update_of_ne (Ne.symm hi)]
      exact hk

/-! ## Progress -/

/-- While the result thread misses a row, a worker is about to store it. -/
theorem storing_of_missing (h : (daemon cfg tree maxScanId).Reach Undisturbed m) {ev : FileEvent}
    (hf : .result (.getRow ev) ∈ m.frames)
    (hrow : m.shared.exportManager.pendingScanRows.lookup ev.scanId = none) :
    ∃ j id row rest, m.stack (.worker j) = .finish id (.insertRow row) :: rest := by
  have hreach := h.reachable
  have hsound := sound_of_reachable hreach
  have hq := (delivered_of_reachable hreach).queued ev.scanId
  have h₁ := le_weigh (w := fetching ev.scanId) hf
  have h₂ : m.shared.exportManager.rows ev.scanId = 0 := by simp [ExportManager.rows, hrow]
  simp only [fetching, if_true] at h₁
  have hpos : 0 < weigh (storing ev.scanId) m.frames := by omega
  obtain ⟨f, hmem, hw⟩ := exists_of_weigh_pos hpos
  obtain ⟨i, hi⟩ := Machine.mem_frames.mp hmem
  cases f with
  | finish id pc =>
    cases pc with
    | insertRow row =>
      have hsh := hsound.shape i
      cases i with
      | http _ => exact (hsh _ hi).elim
      | run => exact absurd hi ((busy_of_reach h).run _ _)
      | worker j =>
        have htail := tail_waits_of_reachable hreach j
        cases hst : m.stack (.worker j) with
        | nil => simp [hst] at hi
        | cons g rest =>
          rw [hst] at hi htail
          rcases List.mem_cons.mp hi with rfl | hi
          · exact ⟨j, id, row, rest, hst⟩
          · exact (htail _ hi).elim
      | result =>
        change ResultShape (m.stack .result) at hsh
        generalize m.stack .result = l at hsh hi
        cases hsh <;> simp at hi
      | main =>
        change MainShape (m.stack .main) at hsh
        generalize m.stack .main = l at hsh hi
        cases hsh <;> simp at hi
    | _ => simp at hw
  | _ => simp at hw

/-- A worker does not disturb the daemon, and neither does a result thread that finds its row. -/
theorem undisturbed_of_worker (h : (daemon cfg tree maxScanId).Reachable m)
    {j : Fin cfg.scanPoolNumThreads} (hi : a.1 = .worker j) : Undisturbed m a := by
  intro f hf
  rw [hi] at hf
  have hsh := (sound_of_reachable h).shape (.worker j)
  unfold Machine.top at hf
  cases hst : m.stack (.worker j) with
  | nil => simp [hst] at hf
  | cons g rest =>
    rw [hst] at hf hsh
    obtain rfl := Option.some.inj hf
    rcases WorkerShape.isJob hsh with hj | rfl
    · cases g <;> first | exact id | exact hj.elim
    · exact id

/-- A worker or the result thread could disturb the daemon only for want of a row, and a worker is
then about to store it. -/
theorem storing_of_disturbed (h : (daemon cfg tree maxScanId).Reach Undisturbed m)
    (hi : a.1.Traverses) (hok : ¬Undisturbed m a) :
    ∃ j id row rest, m.stack (.worker j) = .finish id (.insertRow row) :: rest := by
  obtain ⟨i, x⟩ := a
  cases i with
  | worker j => exact absurd (undisturbed_of_worker h.reachable rfl) hok
  | result =>
    unfold Undisturbed at hok
    push Not at hok
    obtain ⟨f, hf, hdis⟩ := hok
    have hmem := Machine.mem_frames_of_top hf
    have hsh : ResultShape (m.stack .result) := (sound_of_reachable h.reachable).shape .result
    obtain ⟨rest, hst⟩ := List.head?_eq_some_iff.mp hf
    rw [hst] at hsh
    cases hsh with
    | running pc =>
      cases pc with
      | getRow ev => exact storing_of_missing h hmem hdis
      | _ => exact hdis.elim
  | http _ | run | main => exact hi.elim

theorem accepted_of_traverses (h : (daemon cfg tree maxScanId).Reachable m)
    (hi : a.1.Traverses) (hs : (daemon cfg tree maxScanId).step m a = some m') :
    m'.shared.history.accepted = m.shared.history.accepted := by
  have hsh := (sound_of_reachable h).shape a.1
  obtain ⟨f, rest, fs, R, hf, hst, -⟩ := daemon_step hs
  rw [hf] at hsh
  rcases hst.accepted_eq with he | ⟨data, rfl, -⟩
  · exact he
  · refine absurd rfl (hsh.ne_run (fun hr => ?_) _)
    rw [hr] at hi
    exact hi

theorem work_le_brought (h : (daemon cfg tree maxScanId).Reach Undisturbed m) :
    work m.shared m.frames ≤ brought tree m.shared.history.accepted := by
  refine h.invariant (P := fun m : DaemonState cfg =>
    work m.shared m.frames ≤ brought tree m.shared.history.accepted) ?_ ?_
  · rw [work_initial]
    exact Nat.zero_le _
  · intro n a n' hn hok hs hk
    have hwork := work_of_step hn hok hs
    omega

/-! ## Idle daemons -/

/-- In an idle daemon every accepted scan is over, exported, and has its root released. -/
theorem exported_of_idle (h : (daemon cfg tree maxScanId).Reach Undisturbed m)
    (hn : 0 < cfg.scanPoolNumThreads) (hq : 0 < cfg.queSize)
    (hidle : Idle (daemon cfg tree maxScanId) m) (ha : s ∈ m.shared.history.accepted) :
    s ∈ m.shared.exportManager.exportedMap ∧ s ∈ m.shared.history.released ∧
      (m.shared.scheduler.state s = some .done ∨ m.shared.scheduler.state s = some .canceled) := by
  have hreach := h.reachable
  have hres := (idle_stacks h hq hidle).1
  have hexec : execResult m.shared .pop = none :=
    Machine.exec_of_step_eq_none (hidle .result ⟨none, 0, false⟩ (.inr rfl)) hres
  have hc : m.shared.exportManager.resultQueue.container = [] := (execResult_eq_none hexec).2
  have hrow := (drained_of_idle h hn hq hidle ha).2.2
  obtain ⟨ev, hev, hends⟩ := pushed_of_closed hreach ha (by omega)
  rw [ExportManager.pushed, hc, List.append_nil] at hev
  have hrel := released_of_received hreach (by simp [BetweenEvents, hres])
    (rowMissing_of_reach h) hev hends
  have hexp := (handled_of_reachable hreach).released s hrel
  exact ⟨hexp, hrel, over_of_exported hreach hexp⟩

end ScanDaemon
