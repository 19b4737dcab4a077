import ScanDaemon.Runtime.Shapes

/-! # The pending queue

Every pending scan has its entry in `pending_queue`, and the entry of the scan
that `run` is dispatching stays at the front until `run` removes it.
-/

namespace ScanDaemon

open Interleave

/-- The root that `run` is dispatching. -/
def RunPc.data : RunPc → Option PendingRoot
  | .head => none
  | .start data | .submit data | .push data | .full data | .storeFailed data | .erase data
  | .commit data _ _ => some data

/-- The root that `run` is dispatching, read from the stack of its thread. -/
def runData (l : List Frame) : Option PendingRoot := (runPc l).bind RunPc.data

/-- What holds of the pending queue while `run` is dispatching `current`. -/
structure Scheduler.Queued (sc : Scheduler) (current : Option PendingRoot) : Prop where
  known : ∀ data ∈ sc.pendingQueue, sc.state data.scanId ≠ none
  pending : ∀ id, sc.state id = some .pending → ∃ data ∈ sc.pendingQueue, data.scanId = id
  front : sc.stopFlag = false → ∀ data ∈ current, sc.pendingQueue.head? = some data

namespace Scheduler.Queued

variable {cfg : Config} {tree : ScanId → FsNode} {σ σ' : Shared cfg} {x : Input} {f : Frame}
  {fs : List Frame} {sc : Scheduler} {current : Option PendingRoot} {id : ScanId}
  {st : RequestState}

theorem mono (h : sc.Queued current) : sc.Queued none :=
  ⟨h.known, h.pending, fun _ _ hd => by cases hd⟩

/-- A state other than `PENDING` may be set for any scan. -/
theorem setState (h : sc.Queued current) (id : ScanId) (hst : st ≠ .pending) :
    (sc.setState id st).Queued current := by
  refine ⟨fun data hd => ?_, fun k hk => ?_, h.front⟩
  · by_cases hid : data.scanId = id
    · simp [hid]
    · simpa [hid] using h.known data hd
  · by_cases hid : k = id
    · simp [hid, hst] at hk
    · exact h.pending k (by simpa [hid] using hk)

theorem enqueue {root : Path} (h : sc.Queued current) : (sc.enqueue id root).Queued current := by
  refine ⟨fun data hd => ?_, fun k hk => ?_, fun hs data hd => ?_⟩
  · by_cases hid : data.scanId = id
    · simp [hid]
    · have hmem : data ∈ sc.pendingQueue := by
        rcases List.mem_append.mp hd with hd | hd
        · exact hd
        · simp at hd; exact absurd (by rw [hd]) hid
      simpa [hid] using h.known data hmem
  · by_cases hid : k = id
    · exact ⟨⟨id, root⟩, by simp, hid.symm⟩
    · obtain ⟨data, hd, hk⟩ := h.pending k (by simpa [hid] using hk)
      exact ⟨data, by simp [hd], hk⟩
  · have hf := h.front hs data hd
    simp only [enqueue_pendingQueue, List.head?_append, hf, Option.some_or]

/-- The front entry may be removed once its scan is not pending. -/
theorem popFront {o : Option RequestState} (h : sc.Queued current) (ho : sc.state id = o)
    (hne : o ≠ some .pending) : (sc.popFront id).Queued none := by
  have hsub : ∀ data ∈ (sc.popFront id).pendingQueue, data ∈ sc.pendingQueue := by
    intro data hd
    rw [popFront_pendingQueue] at hd
    cases hq : sc.pendingQueue with
    | nil => simp [hq] at hd
    | cons d rest =>
      simp only [hq] at hd
      split_ifs at hd
      · exact List.mem_cons_of_mem _ hd
      · exact hd
  refine ⟨fun data hd => h.known data (hsub data hd), fun k hk => ?_, fun _ _ hd => by cases hd⟩
  obtain ⟨data, hd, rfl⟩ := h.pending k hk
  have hid : data.scanId ≠ id := fun he => hne (ho.symm.trans (he ▸ hk))
  refine ⟨data, ?_, rfl⟩
  rw [popFront_pendingQueue]
  cases hq : sc.pendingQueue with
  | nil => simp [hq] at hd
  | cons d rest =>
    rw [hq] at hd
    simp only
    split_ifs with he
    · rcases List.mem_cons.mp hd with rfl | hd
      · exact absurd he hid
      · exact hd
    · exact hd

theorem removePending {o : Option RequestState} (h : sc.Queued current) (ho : sc.state id = o)
    (hne : o ≠ some .pending) : (sc.removePending id).Queued none :=
  have h := h.popFront ho hne
  ⟨h.known, h.pending, h.front⟩

theorem addRunning (h : sc.Queued current) : sc.addRunning.Queued current :=
  ⟨h.known, h.pending, h.front⟩

theorem requeue {data : PendingRoot} (h : sc.Queued current) (hd : data ∈ sc.pendingQueue) :
    (sc.requeue data.scanId).Queued none := by
  refine ⟨fun d hd => ?_, fun k hk => ?_, fun _ _ hd => by cases hd⟩
  · by_cases hid : d.scanId = data.scanId
    · simp [hid]
    · simpa [hid] using h.known d hd
  · by_cases hid : k = data.scanId
    · exact ⟨data, hd, hid.symm⟩
    · exact h.pending k (by simpa [hid] using hk)

theorem notifyScanFinished (h : sc.Queued current) : (sc.notifyScanFinished id).Queued current := by
  unfold Scheduler.notifyScanFinished
  split
  · have h : sc.subRunning.Queued current := ⟨h.known, h.pending, h.front⟩
    exact h.setState id (by simp)
  · exact ⟨h.known, h.pending, h.front⟩
  · exact h.setState id (by simp)
  · exact h

theorem shutdown (h : sc.Queued current) : sc.shutdown.2.Queued current := by
  refine ⟨by simp [Scheduler.shutdown], fun k hk => ?_, by simp [Scheduler.shutdown]⟩
  rw [state_shutdown] at hk
  split_ifs at hk with h₁ h₂
  · simp at hk
  · simp at hk
  · obtain ⟨data, hd, rfl⟩ := h.pending k hk
    exact absurd ⟨List.mem_map_of_mem hd, .inl hk⟩ h₂

/-- The threads other than `run` leave the entry at the front alone. -/
theorem step (h : σ.scheduler.Queued current) (hs : Step tree σ x f σ' fs)
    (hf : ∀ pc, f ≠ .run pc) : σ'.scheduler.Queued current := by
  cases hs with
  | run => exact absurd rfl (hf _)
  | http hs =>
    cases hs with
    | draw => exact ⟨h.known, h.pending, h.front⟩
    | accept => exact h.enqueue
    | cancel_running => exact h.setState _ (by simp)
    | @cancel_pending id =>
      have h := h.setState id (show RequestState.dropped ≠ .pending by simp)
      exact ⟨h.known, h.pending, h.front⟩
    | _ => exact h
  | finish hs =>
    cases hs with
    | notify_finished => exact h.notifyScanFinished
    | notify_dispatch => exact ⟨h.known, h.pending, h.front⟩
    | _ => exact h
  | result hs =>
    cases hs with
    | notify_export => exact ⟨h.known, h.pending, h.front⟩
    | _ => exact h
  | main hs =>
    cases hs with
    | shutdown => exact h.shutdown
    | _ => exact h
  | workForever hs => cases hs <;> exact h
  | workerJob hs => cases hs <;> exact h
  | cancelScan => exact h

/-- The dispatch of a scan; a dispatching scan has not seen the shutdown. -/
theorem step_run {pc : RunPc} (h : σ.scheduler.Queued pc.data)
    (hs : RunStep tree σ x pc σ' fs)
    (hstop : ∀ data ∈ pc.data, σ.scheduler.state data.scanId = some .dispatching →
      σ.scheduler.stopFlag = false) : σ'.scheduler.Queued (runData fs) := by
  cases hs with
  | stop => exact h
  | skip_dropped _ _ hst =>
    rcases hst with hst | hst
    · exact h.popFront hst (by simp)
    · exact h.popFront hst (by simp)
  | skip _ _ hst hne => exact h.removePending hst (by simpa using hne)
  | @dispatch data _ _ _ _ hq =>
    have h := h.setState data.scanId (show RequestState.dispatching ≠ .pending by simp)
    refine ⟨h.known, h.pending, fun _ d hd => ?_⟩
    cases hd
    simp [hq]
  | commit_canceled hst => exact (h.removePending hst (by simp)).addRunning
  | commit_canceled_refused hst => exact h.removePending hst (by simp)
  | @commit_running data _ hst =>
    have h := h.addRunning.setState data.scanId (show RequestState.running ≠ .pending by simp)
    exact h.removePending (by simp) (show some RequestState.running ≠ _ by simp)
  | @commit_failed data hst => exact (h.removePending hst (by simp)).setState _ (by simp)
  | @commit_pending data hst =>
    have hf := h.front (hstop data rfl hst) data rfl
    exact h.requeue (List.mem_of_mem_head? hf)
  | commit_other => exact h.mono
  | _ => exact h

end Scheduler.Queued

end ScanDaemon
