import ScanDaemon.Lifecycle.Refinement

/-! # The row behind a sentinel

`task_on_job_finish` pushes the sentinel of a scan and then stores its row; the
result thread pops the sentinel and then takes the row. The row is there when
the result thread does not pop between the two steps of the worker.
-/

namespace ScanDaemon

open Interleave

variable {cfg : Config} {tree : ScanId → FsNode} {σ σ' : Shared cfg} {x : Input} {f : Frame}
  {fs : List Frame} {F F' R : Multiset Frame} {maxScanId : ScanId} {m m' : DaemonState cfg}
  {a : Thread cfg × Input} {s : ScanId} {ev : FileEvent}

/-- The event is the sentinel of `s`. -/
def FileEvent.Ends (ev : FileEvent) (s : ScanId) : Prop :=
  ev.endSignal.isSentinel = true ∧ ev.scanId = s

instance (ev : FileEvent) (s : ScanId) : Decidable (ev.Ends s) :=
  inferInstanceAs (Decidable (_ ∧ _))

theorem ScanData.not_ends (data : ScanData) : ¬data.event.Ends s := by simp [FileEvent.Ends]

/-- What `task_on_job_finish` carries belongs to its scan. -/
def Frame.Sealed : Frame → Prop
  | .finish id (.pushSentinel fake row) => fake.Ends id ∧ row.scanId = id
  | .finish id (.insertRow row) => row.scanId = id
  | _ => True

theorem Step.sealed (hs : Step tree σ x f σ' fs) (hf : f.Sealed) : ∀ g ∈ fs, g.Sealed := by
  cases hs with
  | finish hs =>
    cases hs with
    | take_task => simp [Frame.Sealed, FileEvent.Ends]
    | push_dropped | push_sentinel => simpa [Frame.Sealed] using hf.2
    | _ => simp [Frame.Sealed]
  | http hs | run hs | workForever hs | workerJob hs | result hs | main hs =>
    cases hs <;> simp [Frame.Sealed]
  | cancelScan => simp

theorem sealed_of_reachable (h : (daemon cfg tree maxScanId).Reachable m) :
    ∀ f ∈ m.frames, f.Sealed := by
  refine h.invariant (P := fun m => ∀ f ∈ m.frames, f.Sealed) (fun f hf => ?_)
    fun n a n' _ _ hs hn => Machine.frames_invariant hs hn fun f fs hf he =>
      (step_of_exec he).sealed hf
  obtain ⟨i, hi⟩ := Machine.mem_frames.mp hf
  cases i <;> simp [daemon, initialStack] at hi <;> subst hi <;> trivial

/-- Counts the result thread between the sentinel of `s` and its row. -/
@[simp] def fetching (s : ScanId) : Frame → ℕ
  | .result (.getRow ev) => if ev.scanId = s then 1 else 0
  | _ => 0

/-- Counts the calls of `task_on_job_finish` between the sentinel of `s` and its row. -/
@[simp] def storing (s : ScanId) : Frame → ℕ
  | .finish _ (.insertRow row) => if row.scanId = s then 1 else 0
  | _ => 0

/-- The sentinels of `s` in the result queue. -/
def ExportManager.sentinels (em : ExportManager cfg) (s : ScanId) : ℕ :=
  em.resultQueue.container.countP fun ev => ev.Ends s

/-- The rows of `s` in `pending_scan_rows`. -/
def ExportManager.rows (em : ExportManager cfg) (s : ScanId) : ℕ :=
  (em.pendingScanRows.lookup s).isSome.toNat

/-- The rows of `s` that have ever been given to `insert_scan_task`. -/
def History.storedRows (h : History) (s : ScanId) : ℕ := h.stored.countP fun row => row.scanId = s

/-- Every sentinel that has not met its row has the row ahead of it. -/
structure Delivered (σ : Shared cfg) (F : Multiset Frame) : Prop where
  queued : ∀ s, σ.exportManager.sentinels s + weigh (fetching s) F ≤
    weigh (storing s) F + σ.exportManager.rows s
  stored : ∀ s, σ.exportManager.rows s ≤ σ.history.storedRows s

/-- The queue, the rows and the frames of the delivery do not change. -/
theorem Delivered.keep (h : Delivered σ F)
    (hq : ∀ s, σ'.exportManager.sentinels s = σ.exportManager.sentinels s)
    (hr : ∀ s, σ'.exportManager.rows s = σ.exportManager.rows s)
    (hs : ∀ s, σ'.history.storedRows s = σ.history.storedRows s)
    (hf : ∀ s, weigh (fetching s) F' = weigh (fetching s) F)
    (hw : ∀ s, weigh (storing s) F' = weigh (storing s) F) : Delivered σ' F' where
  queued s := by rw [hq, hf, hw, hr]; exact h.queued s
  stored s := by rw [hr, hs]; exact h.stored s

theorem storing_le : weigh (storing s) F ≤ weigh (rowWeight s) F :=
  weigh_le_weigh fun f _ => by
    cases f with
    | finish id pc => cases pc <;> simp
    | _ => simp

namespace ExportManager

variable {em : ExportManager cfg} {rest : List FileEvent} {row : ScanTaskRow} {id : ScanId}

theorem sentinels_pushBack :
    (em.pushBack ev).sentinels s = em.sentinels s + if ev.Ends s then 1 else 0 := by
  simp [sentinels, List.countP_singleton]

theorem sentinels_receive (hc : em.resultQueue.container = ev :: rest) :
    (em.receive ev rest).sentinels s + (if ev.Ends s then 1 else 0) = em.sentinels s := by
  simp [sentinels, hc, List.countP_cons]

theorem rows_insertScanTask :
    (em.insertScanTask row).rows s = if row.scanId = s then 1 else em.rows s := by
  unfold rows
  by_cases hs : row.scanId = s
  · simp [hs]
  · simp [hs, Ne.symm hs]

theorem rows_takeRow : (em.takeRow id).rows s = if id = s then 0 else em.rows s := by
  unfold rows
  by_cases hs : id = s
  · simp [hs]
  · simp [hs, Ne.symm hs]

variable (em s) in
theorem rows_le : em.rows s ≤ 1 := Bool.toNat_le _

theorem rows_pos : 0 < em.rows s ↔ (em.pendingScanRows.lookup s).isSome = true := by
  unfold rows
  cases (em.pendingScanRows.lookup s).isSome <;> simp

end ExportManager

theorem FinishStep.delivered {id : ScanId} {pc : FinishPc} (hs : FinishStep σ x id pc σ' fs)
    (h : Delivered σ (.finish id pc ::ₘ R))
    (hf : (Frame.finish id pc).Sealed)
    (hone : ∀ s, weigh (rowWeight s) (.finish id pc ::ₘ R) + σ.history.storedRows s ≤ 1) :
    Delivered σ' ((fs : Multiset Frame) + R) := by
  cases hs with
  | @push_dropped fake row =>
    refine ⟨fun s => ?_, h.stored⟩
    have hk := h.queued s
    simp at hk ⊢
    omega
  | @push_sentinel fake row =>
    have he : fake.scanId = row.scanId := hf.1.2.trans hf.2.symm
    refine ⟨fun s => ?_, h.stored⟩
    have hk := h.queued s
    have hends : (if fake.Ends s then 1 else 0) ≤ if row.scanId = s then 1 else 0 := by
      by_cases hid : row.scanId = s
      · simp only [if_pos hid]
        split_ifs <;> omega
      · simp [FileEvent.Ends, he, hid]
    have hr : (σ.exportManager.pushBack fake).rows s = σ.exportManager.rows s := rfl
    simp [ExportManager.sentinels_pushBack, hr] at hk ⊢
    omega
  | @insert_row row =>
    refine ⟨fun s => ?_, fun s => ?_⟩
    · have hk := h.queued s
      have h₁ := hone s
      have h₂ := h.stored s
      have hq : (σ.exportManager.insertScanTask row).sentinels s =
          σ.exportManager.sentinels s := rfl
      simp [ExportManager.rows_insertScanTask, hq] at hk h₁ ⊢
      split_ifs at hk h₁ ⊢ <;> omega
    · have hk := h.stored s
      simp [ExportManager.rows_insertScanTask, History.storedRows, List.countP_cons] at hk ⊢
      split_ifs <;> omega
  | _ =>
    exact h.keep (fun _ => rfl) (fun _ => rfl) (fun _ => rfl)
      (fun _ => by simp) fun _ => by simp

theorem ResultStep.delivered {pc : ResultPc} (hs : ResultStep σ pc σ' fs)
    (h : Delivered σ (.result pc ::ₘ R)) : Delivered σ' ((fs : Multiset Frame) + R) := by
  cases hs with
  | exit | insert_exported | notify_export =>
    exact h.keep (fun _ => rfl) (fun _ => rfl) (fun _ => rfl)
      (fun _ => by simp) fun _ => by simp
  | @event ev rest hc he =>
    refine h.keep (fun s => ?_) (fun _ => rfl) (fun _ => rfl)
      (fun _ => by simp) fun _ => by simp
    simpa [FileEvent.Ends, he] using ExportManager.sentinels_receive (s := s) hc
  | @sentinel ev rest hc he =>
    refine ⟨fun s => ?_, h.stored⟩
    have hk := h.queued s
    have hq := ExportManager.sentinels_receive (s := s) hc
    have hr : (σ.exportManager.receive ev rest).rows s = σ.exportManager.rows s := rfl
    simp [FileEvent.Ends, he, hr] at hk hq ⊢
    omega
  | @row_missing ev hn =>
    refine ⟨fun s => ?_, h.stored⟩
    have hk := h.queued s
    have hq : ({ σ.exportManager with resultThread := false } : ExportManager cfg).sentinels s =
      σ.exportManager.sentinels s := rfl
    have hr : ({ σ.exportManager with resultThread := false } : ExportManager cfg).rows s =
      σ.exportManager.rows s := rfl
    simp [hq, hr] at hk ⊢
    omega
  | @get_row ev row hl =>
    refine ⟨fun s => ?_, fun s => ?_⟩
    · have hk := h.queued s
      have hle := σ.exportManager.rows_le s
      have hq : (σ.exportManager.takeRow ev.scanId).sentinels s = σ.exportManager.sentinels s := rfl
      simp [ExportManager.rows_takeRow, hq] at hk ⊢
      split_ifs at hk ⊢ <;> omega
    · have hk := h.stored s
      simp [ExportManager.rows_takeRow, History.storedRows] at hk ⊢
      split_ifs <;> omega

theorem Step.delivered (hs : Step tree σ x f σ' fs) (h : Delivered σ (f ::ₘ R)) (hf : f.Sealed)
    (hone : ∀ s, weigh (rowWeight s) (f ::ₘ R) + σ.history.storedRows s ≤ 1) :
    Delivered σ' ((fs : Multiset Frame) + R) := by
  cases hs with
  | finish hs => exact hs.delivered h hf hone
  | result hs => exact hs.delivered h
  | cancelScan =>
    exact h.keep (fun _ => rfl) (fun _ => rfl) (fun _ => rfl)
      (fun _ => by simp) fun _ => by simp
  | workerJob hs =>
    cases hs with
    | scan =>
      refine h.keep (fun s => ?_) (fun _ => rfl) (fun _ => rfl)
        (fun _ => by simp) fun _ => by simp
      simp [ExportManager.sentinels_pushBack, ScanData.not_ends]
    | _ =>
      exact h.keep (fun _ => rfl) (fun _ => rfl) (fun _ => rfl)
        (fun _ => by simp) fun _ => by simp
  | http hs | run hs | workForever hs | main hs =>
    cases hs <;> exact h.keep (fun _ => rfl) (fun _ => rfl) (fun _ => rfl)
      (fun _ => by simp) fun _ => by simp

theorem Sound.row_once (h : Sound m) (s : ScanId) :
    weigh (rowWeight s) m.frames + m.shared.history.storedRows s ≤ 1 := by
  have h₁ := (h.valid s).closing
  have h₂ := (h.valid s).drain
  have h₃ := (h.valid s).once
  have h₄ : (life s m).closed =
    weigh (rowWeight s) m.frames + m.shared.history.storedRows s := rfl
  omega

theorem delivered_of_reachable (h : (daemon cfg tree maxScanId).Reachable m) :
    Delivered m.shared m.frames := by
  refine h.invariant (P := fun m => Delivered m.shared m.frames) ⟨?_, ?_⟩
    fun n a n' hn _ hs hd => ?_
  · intro s
    rw [weigh_initial (w := fetching s) fun i f hf => by
      cases i <;> simp [initialStack] at hf <;> subst hf <;> rfl]
    simp [daemon, Shared.new, ExportManager.new, ExportManager.sentinels, JobQueue.new]
  · intro s
    simp [daemon, Shared.new, ExportManager.new, ExportManager.rows]
  · obtain ⟨f, rest, fs, R, -, hst, -, hF, hF'⟩ := daemon_step hs
    have hone := (sound_of_reachable hn).row_once
    have hf := sealed_of_reachable hn
    rw [hF] at hd hone hf
    rw [hF']
    exact hst.delivered hd (hf f (Multiset.mem_cons_self _ _)) hone

/-- When a sentinel is at the front of the queue, its row is there exactly if no worker stands
between the two. -/
theorem row_iff (h : (daemon cfg tree maxScanId).Reachable m) {rest : List FileEvent}
    (hc : m.shared.exportManager.resultQueue.container = ev :: rest)
    (he : ev.endSignal.isSentinel = true) :
    (m.shared.exportManager.pendingScanRows.lookup ev.scanId).isSome = true ↔
      weigh (storing ev.scanId) m.frames = 0 := by
  have hd := delivered_of_reachable h
  have h₁ := hd.queued ev.scanId
  have h₂ := hd.stored ev.scanId
  have h₃ := (sound_of_reachable h).row_once ev.scanId
  have h₄ := storing_le (s := ev.scanId) (F := m.frames)
  have h₅ := ExportManager.sentinels_receive (s := ev.scanId) hc
  rw [if_pos ⟨he, rfl⟩] at h₅
  rw [← ExportManager.rows_pos]
  omega

/-- The event that a frame pops next. -/
def Frame.pops (em : ExportManager cfg) : Frame → Option FileEvent
  | .result .pop => em.resultQueue.container.head?
  | _ => none

/-- The step does not pop the sentinel of a scan whose row a worker is about to store. -/
def PopsStored (m : DaemonState cfg) (a : Thread cfg × Input) : Prop :=
  ∀ f ∈ m.top a.1, ∀ ev ∈ f.pops m.shared.exportManager, ev.endSignal.isSentinel = true →
    weigh (storing ev.scanId) m.frames = 0

instance (m : DaemonState cfg) (a : Thread cfg × Input) : Decidable (PopsStored m a) :=
  inferInstanceAs (Decidable (∀ f ∈ m.top a.1, ∀ ev ∈ f.pops _, _ → _))

/-- The result thread finds the rows that it fetches. -/
structure Fetched (σ : Shared cfg) (F : Multiset Frame) : Prop where
  fetched : ∀ s, weigh (fetching s) F ≤ σ.exportManager.rows s
  intact : σ.history.rowMissing = false

theorem Fetched.keep (h : Fetched σ F)
    (hr : ∀ s, σ.exportManager.rows s ≤ σ'.exportManager.rows s)
    (hf : ∀ s, weigh (fetching s) F' = weigh (fetching s) F)
    (hm : σ'.history.rowMissing = σ.history.rowMissing) : Fetched σ' F' where
  fetched s := by rw [hf]; exact (h.fetched s).trans (hr s)
  intact := hm.trans h.intact

theorem Step.fetched (hs : Step tree σ x f σ' fs) (h : Fetched σ (f ::ₘ R))
    (hd : Delivered σ (f ::ₘ R))
    (hok : ∀ ev ∈ f.pops σ.exportManager, ev.endSignal.isSentinel = true →
      weigh (storing ev.scanId) (f ::ₘ R) = 0) : Fetched σ' ((fs : Multiset Frame) + R) := by
  cases hs with
  | result hs =>
    cases hs with
    | exit | event | insert_exported | notify_export =>
      exact h.keep (fun _ => le_rfl) (fun _ => by simp) rfl
    | @sentinel ev rest hc he =>
      refine ⟨fun s => ?_, h.intact⟩
      have hk := h.fetched s
      have hr : (σ.exportManager.receive ev rest).rows s = σ.exportManager.rows s := rfl
      by_cases hs : ev.scanId = s
      · subst hs
        have h₁ := hd.queued ev.scanId
        have h₂ := ExportManager.sentinels_receive (s := ev.scanId) hc
        have h₃ := hok ev (by simp [Frame.pops, hc]) he
        rw [h₃] at h₁
        rw [if_pos ⟨he, rfl⟩] at h₂
        have h₄ := σ.exportManager.rows_le ev.scanId
        simp [hr] at h₁ ⊢
        omega
      · simpa [hr, hs] using hk
    | @row_missing ev hn =>
      have hk := h.fetched ev.scanId
      simp [ExportManager.rows, hn] at hk
    | @get_row ev row hl =>
      refine ⟨fun s => ?_, h.intact⟩
      have hk := h.fetched s
      have hle := σ.exportManager.rows_le s
      simp [ExportManager.rows_takeRow] at hk ⊢
      split_ifs at hk ⊢ <;> omega
  | finish hs =>
    cases hs with
    | insert_row =>
      refine h.keep (fun s => ?_) (fun _ => by simp) rfl
      have hle := σ.exportManager.rows_le s
      simp only [Shared.withHistory_exportManager, Shared.withExport_exportManager,
        ExportManager.rows_insertScanTask]
      split_ifs <;> omega
    | _ => exact h.keep (fun _ => le_rfl) (fun _ => by simp) rfl
  | cancelScan => exact h.keep (fun _ => le_rfl) (fun _ => by simp) rfl
  | http hs | run hs | workForever hs | workerJob hs | main hs =>
    cases hs <;> exact h.keep (fun _ => le_rfl) (fun _ => by simp) rfl

theorem fetched_of_reach (h : (daemon cfg tree maxScanId).Reach PopsStored m) :
    Fetched m.shared m.frames := by
  refine h.invariant (P := fun m => Fetched m.shared m.frames) ⟨fun s => ?_, rfl⟩
    fun n a n' hn hok hs hk => ?_
  · rw [weigh_initial (w := fetching s) fun i f hf => by
      cases i <;> simp [initialStack] at hf <;> subst hf <;> rfl]
    exact Nat.zero_le _
  · obtain ⟨f, rest, fs, R, hf, hst, -, hF, hF'⟩ := daemon_step hs
    have hd := delivered_of_reachable hn.reachable
    have hok := hok f (Machine.top_of_stack hf)
    rw [hF] at hk hd hok
    rw [hF']
    exact hst.fetched hk hd hok

/-- In the runs that pop no sentinel before its row is stored, the row of every sentinel is in
`pending_scan_rows` when it is popped and still there when it is fetched, so `get_scan_task`
never throws. -/
theorem row_delivered (h : (daemon cfg tree maxScanId).Reach PopsStored m) :
    (∀ a, PopsStored m a → ∀ f ∈ m.top a.1, ∀ ev ∈ f.pops m.shared.exportManager,
      ev.endSignal.isSentinel = true →
        (m.shared.exportManager.pendingScanRows.lookup ev.scanId).isSome = true) ∧
    (∀ ev, .result (.getRow ev) ∈ m.frames →
      (m.shared.exportManager.getScanTask ev).isSome = true) ∧
    m.shared.history.rowMissing = false := by
  have hk := fetched_of_reach h
  refine ⟨fun a hok f hf ev hev he => ?_, fun ev hev => ?_, hk.intact⟩
  · have hz := hok f hf ev hev he
    cases f with
    | result pc =>
      cases pc with
      | pop =>
        obtain ⟨rest, hc⟩ := List.head?_eq_some_iff.mp hev
        exact (row_iff h.reachable hc he).mpr hz
      | _ => cases hev
    | _ => cases hev
  · have h₁ := hk.fetched ev.scanId
    have h₂ := le_weigh (w := fetching ev.scanId) hev
    simp only [fetching, if_true] at h₂
    simpa [ExportManager.getScanTask] using ExportManager.rows_pos.mp (h₂.trans h₁)

/-- The worker stores the row before the result thread looks for it. -/
theorem row_delivered_one :
    let m := (daemon (smallConfig 1 1 1) (fun _ => .file 0 0) 0).run
      (serve (.submit ['/', 'a']) 2 ++ steps 5 .run ++ steps 12 (.worker ⟨0, Nat.one_pos⟩) ++
        steps 5 .result)
    m.shared.history.released = [1] ∧ m.shared.history.rowMissing = false :=
  ⟨by decide, (row_delivered (System.reach_run (by decide +kernel))).2.2⟩

/-- The result thread pops the sentinel of a scan before its row is stored; then the exception
ends the thread. -/
theorem row_not_stored :
    let D := daemon (smallConfig 1 1 1) (fun _ => .file 0 0) 0
    (∃ m, D.Reachable m ∧ (∃ f ∈ m.top .result, ∃ ev ∈ f.pops m.shared.exportManager,
      ev.endSignal.isSentinel = true ∧
        m.shared.exportManager.pendingScanRows.lookup ev.scanId = none)) ∧
    ∃ m, D.Reachable m ∧ m.shared.history.rowMissing = true ∧ m.stack .result = [] :=
  ⟨⟨_, System.reachable_run _ (serve (.submit ['/', 'a']) 2 ++ steps 5 .run ++
      steps 9 (.worker ⟨0, Nat.one_pos⟩) ++ steps 1 .result),
      _, rfl, _, rfl, by decide, by decide⟩,
    ⟨_, System.reachable_run _ (serve (.submit ['/', 'a']) 2 ++ steps 5 .run ++
      steps 9 (.worker ⟨0, Nat.one_pos⟩) ++ steps 3 .result), by decide, by rfl⟩⟩

end ScanDaemon
