import ScanDaemon.Lifecycle.Refinement

/-! # The roots that were submitted

Every id, root and row in the daemon stems from one submission: a scan keeps the
root it was admitted with until that root is released.
-/

namespace ScanDaemon

open Interleave

variable {cfg : Config} {tree : ScanId → FsNode} {σ σ' : Shared cfg} {x : Input} {f g : Frame}
  {fs : List Frame} {maxScanId : ScanId} {m m' : DaemonState cfg} {a : Thread cfg × Input}
  {sub sub' : List (ScanId × Path)}

/-- The ids and roots in a frame stem from a submission. -/
def Frame.Named (sub : List (ScanId × Path)) : Frame → Prop
  | .http (.locked id rootPath) => id ≠ 0 ∧ rootPath ≠ []
  | .run pc => ∀ data ∈ pc.data, (data.scanId, data.root) ∈ sub
  | .finish _ (.pushSentinel _ row) | .finish _ (.insertRow row)
  | .result (.insertExported _ row) | .result (.notifyExport row) =>
    (row.scanId, row.submitRoot) ∈ sub
  | _ => True

theorem Frame.Named.mono (h : f.Named sub) (hsub : sub ⊆ sub') : f.Named sub' := by
  cases f with
  | http pc => cases pc <;> exact h
  | run pc => exact fun data hd => hsub (h data hd)
  | finish id pc => cases pc <;> first | exact hsub h | trivial
  | result pc => cases pc <;> first | exact hsub h | trivial
  | _ => trivial

/-- The ids and roots in the memory stem from a submission. -/
structure Shared.Named (σ : Shared cfg) : Prop where
  next : σ.scheduler.nextScanId ≠ 0
  known : ∀ id root, (id, root) ∈ σ.history.submitted → σ.scheduler.state id ≠ none
  unique : ∀ id root root', (id, root) ∈ σ.history.submitted →
    (id, root') ∈ σ.history.submitted → root = root'
  proper : ∀ id root, (id, root) ∈ σ.history.submitted → id ≠ 0 ∧ root ≠ []
  queue : ∀ data ∈ σ.scheduler.pendingQueue, (data.scanId, data.root) ∈ σ.history.submitted
  registry : ∀ id task, σ.manager.registry.lookup id = some task →
    (id, task.rootPath) ∈ σ.history.submitted
  rows : ∀ id row, σ.exportManager.pendingScanRows.lookup id = some row →
    row.scanId = id ∧ (id, row.submitRoot) ∈ σ.history.submitted
  released : ∀ id ∈ σ.history.released, ∃ root, (id, root) ∈ σ.history.submitted

theorem Shared.Named.congr (h : σ.Named)
    (hsub : σ'.history.submitted = σ.history.submitted)
    (hnext : σ'.scheduler.nextScanId = σ.scheduler.nextScanId)
    (hst : ∀ s, σ.scheduler.state s ≠ none → σ'.scheduler.state s ≠ none)
    (hq : ∀ data ∈ σ'.scheduler.pendingQueue, data ∈ σ.scheduler.pendingQueue)
    (hreg : ∀ id task, σ'.manager.registry.lookup id = some task →
      (id, task.rootPath) ∈ σ.history.submitted)
    (hrow : ∀ id row, σ'.exportManager.pendingScanRows.lookup id = some row →
      row.scanId = id ∧ (id, row.submitRoot) ∈ σ.history.submitted)
    (hrel : ∀ id ∈ σ'.history.released, ∃ root, (id, root) ∈ σ.history.submitted) :
    σ'.Named where
  next := hnext ▸ h.next
  known id root hp := hst id (h.known id root (hsub ▸ hp))
  unique := hsub ▸ h.unique
  proper := hsub ▸ h.proper
  queue data hd := hsub ▸ h.queue data (hq data hd)
  registry id task ht := hsub ▸ hreg id task ht
  rows id row hr := hsub ▸ hrow id row hr
  released id hid := hsub ▸ hrel id hid

/-- The scheduler and the submissions do not change. -/
theorem Shared.Named.keep (h : σ.Named) (hsub : σ'.history.submitted = σ.history.submitted)
    (hsc : σ'.scheduler = σ.scheduler)
    (hreg : ∀ id task, σ'.manager.registry.lookup id = some task →
      (id, task.rootPath) ∈ σ.history.submitted)
    (hrow : ∀ id row, σ'.exportManager.pendingScanRows.lookup id = some row →
      row.scanId = id ∧ (id, row.submitRoot) ∈ σ.history.submitted)
    (hrel : ∀ id ∈ σ'.history.released, ∃ root, (id, root) ∈ σ.history.submitted) : σ'.Named :=
  h.congr hsub (congrArg _ hsc) (fun _ hs => hsc ▸ hs) (fun _ hd => hsc ▸ hd) hreg hrow hrel

/-- Only the queue and the states change, and no scan is forgotten. -/
theorem Shared.Named.withScheduler {sc : Scheduler} (h : σ.Named)
    (hnext : sc.nextScanId = σ.scheduler.nextScanId)
    (hst : ∀ s, σ.scheduler.state s ≠ none → sc.state s ≠ none)
    (hq : ∀ data ∈ sc.pendingQueue, data ∈ σ.scheduler.pendingQueue) :
    (σ.withScheduler sc).Named :=
  h.congr rfl hnext hst hq h.registry h.rows h.released

theorem Scheduler.mem_popFront {sc : Scheduler} {id : ScanId} {data : PendingRoot}
    (h : data ∈ (sc.popFront id).pendingQueue) : data ∈ sc.pendingQueue := by
  rw [popFront_pendingQueue] at h
  cases hq : sc.pendingQueue with
  | nil => simp [hq] at h
  | cons d rest =>
    simp only [hq] at h
    split_ifs at h
    · exact List.mem_cons_of_mem _ h
    · exact h

theorem HttpStep.named {pc : HttpPc} (hs : HttpStep σ pc σ' fs) (h : σ.Named)
    (hf : (Frame.http pc).Named σ.history.submitted) :
    σ'.Named ∧ ∀ g ∈ fs, g.Named σ'.history.submitted := by
  cases hs with
  | draw hne =>
    refine ⟨⟨by simp [Scheduler.genScanId], h.known, h.unique, h.proper, h.queue, h.registry,
      h.rows, h.released⟩, ?_⟩
    simpa [Frame.Named] using ⟨h.next, hne⟩
  | @accept id root hstop ho hn =>
    have hfresh : ∀ root', (id, root') ∉ σ.history.submitted :=
      fun root' hp => h.known id root' hp hn
    refine ⟨⟨h.next, fun k r hp => ?_, fun k r r' hp hp' => ?_, fun k r hp => ?_,
      fun data hd => ?_, fun k task ht => .tail _ (h.registry k task ht), fun k row hr =>
      ⟨(h.rows k row hr).1, .tail _ (h.rows k row hr).2⟩, fun k hk => ?_⟩, by simp⟩
    · by_cases hk : k = id
      · simp [hk]
      · rcases List.mem_cons.mp hp with he | hp
        · exact absurd (Prod.mk.inj he).1 hk
        · simpa [hk] using h.known k r hp
    · rcases List.mem_cons.mp hp with he | hp <;> rcases List.mem_cons.mp hp' with he' | hp'
      · rw [(Prod.mk.inj he).2, (Prod.mk.inj he').2]
      · rw [(Prod.mk.inj he).1] at hp'
        exact absurd hp' (hfresh r')
      · rw [(Prod.mk.inj he').1] at hp
        exact absurd hp (hfresh r)
      · exact h.unique k r r' hp hp'
    · rcases List.mem_cons.mp hp with he | hp
      · obtain ⟨rfl, rfl⟩ := Prod.mk.inj he
        exact hf
      · exact h.proper k r hp
    · rcases List.mem_append.mp hd with hd | hd
      · exact .tail _ (h.queue data hd)
      · rw [List.mem_singleton.mp hd]
        exact .head _
    · obtain ⟨r, hr⟩ := h.released k hk
      exact ⟨r, .tail _ hr⟩
  | cancel_running => exact ⟨h.withScheduler rfl (fun _ => Scheduler.state_setState_ne_none)
      fun _ => id, by simp [Frame.Named]⟩
  | cancel_pending => exact ⟨h.withScheduler rfl (fun _ => Scheduler.state_setState_ne_none)
      fun _ => id, by simp⟩
  | _ => exact ⟨h, by simp [Frame.Named]⟩

theorem RunStep.named {pc : RunPc} (hs : RunStep tree σ x pc σ' fs) (h : σ.Named)
    (hf : (Frame.run pc).Named σ.history.submitted) :
    σ'.Named ∧ ∀ g ∈ fs, g.Named σ'.history.submitted := by
  cases hs with
  | stop => exact ⟨h, by simp⟩
  | skip_dropped | skip => exact ⟨h.withScheduler rfl (fun _ => id) fun _ => Scheduler.mem_popFront,
      by simp [Frame.Named, RunPc.data]⟩
  | @dispatch data rest hstop hfull hr hq hst =>
    refine ⟨h.withScheduler rfl (fun _ => Scheduler.state_setState_ne_none) fun _ => id, ?_⟩
    simpa [Frame.Named, RunPc.data] using h.queue data (by simp [hq])
  | @register data hr =>
    refine ⟨h.keep rfl rfl (fun id task ht => ?_) h.rows h.released,
      by simpa [Frame.Named, RunPc.data] using hf⟩
    by_cases hid : id = data.scanId
    · simp only [Shared.withManager_manager, Manager.emplace_registry, ScanMap.lookup_insert, hid,
        if_true, Option.some.injEq] at ht
      subst ht
      exact hid ▸ hf data rfl
    · exact h.registry id task (by simpa [hid] using ht)
  | @erase data =>
    refine ⟨h.keep rfl rfl (fun id task ht => ?_) h.rows h.released,
      by simpa [Frame.Named, RunPc.data] using hf⟩
    by_cases hid : id = data.scanId
    · simp [hid] at ht
    · exact h.registry id task (by simpa [hid] using ht)
  | commit_canceled | commit_canceled_refused =>
    exact ⟨h.withScheduler rfl (fun _ => id) fun _ => Scheduler.mem_popFront,
      by simp [Frame.Named, RunPc.data]⟩
  | commit_running | commit_failed =>
    exact ⟨h.withScheduler rfl (fun _ => Scheduler.state_setState_ne_none)
      fun _ => Scheduler.mem_popFront, by simp [Frame.Named, RunPc.data]⟩
  | commit_pending =>
    exact ⟨h.withScheduler rfl (fun _ => Scheduler.state_setState_ne_none) fun _ => id,
      by simp [Frame.Named, RunPc.data]⟩
  | commit_other => exact ⟨h, by simp [Frame.Named, RunPc.data]⟩
  | refuse_shutdown =>
    exact ⟨h.keep rfl rfl h.registry h.rows h.released,
      by simpa [Frame.Named, RunPc.data] using hf⟩
  | throw | registered | submit | accept | refuse_full | full | store_failed =>
    exact ⟨h.keep rfl rfl h.registry h.rows h.released,
      by simpa [Frame.Named, RunPc.data] using hf⟩

theorem FinishStep.named {id : ScanId} {pc : FinishPc} (hs : FinishStep σ x id pc σ' fs)
    (h : σ.Named) (hf : (Frame.finish id pc).Named σ.history.submitted) :
    σ'.Named ∧ ∀ g ∈ fs, g.Named σ'.history.submitted := by
  have hreg : ∀ k task, (σ.manager.unregister id).registry.lookup k = some task →
      (k, task.rootPath) ∈ σ.history.submitted := fun k task ht => by
    by_cases hk : k = id
    · simp [hk] at ht
    · exact h.registry k task (by simpa [hk] using ht)
  cases hs with
  | notify_finished =>
    refine ⟨h.congr rfl ?_ ?_ ?_ h.registry h.rows h.released, by simp [Frame.Named]⟩
    · exact Scheduler.nextScanId_notifyScanFinished
    · exact fun s => Scheduler.state_notifyScanFinished_ne_none
    · exact fun data hd => by simpa using hd
  | task_zero =>
    exact ⟨h.keep rfl rfl hreg h.rows h.released,
      by simp [Frame.Named]⟩
  | take_task _ ht =>
    refine ⟨h.keep rfl rfl hreg h.rows h.released, ?_⟩
    simpa [Frame.Named] using h.registry id _ ht
  | push_dropped => exact ⟨h, by simpa [Frame.Named] using hf⟩
  | push_sentinel =>
    exact ⟨h.keep rfl rfl h.registry h.rows h.released,
      by simpa [Frame.Named] using hf⟩
  | @insert_row row =>
    refine ⟨h.keep rfl rfl h.registry (fun k r hr => ?_) h.released,
      by simp [Frame.Named]⟩
    by_cases hk : k = row.scanId
    · simp only [Shared.withHistory_exportManager, Shared.withExport_exportManager,
        ExportManager.insertScanTask_pendingScanRows, ScanMap.lookup_insert, hk, if_true,
        Option.some.injEq] at hr
      subst hr
      exact ⟨hk.symm, hk ▸ hf⟩
    · exact h.rows k r (by simpa [hk] using hr)
  | task_missing | read_canceled | exchange_clear => exact ⟨h, by simp [Frame.Named]⟩
  | notify_dispatch =>
    exact ⟨h.withScheduler rfl (fun _ hs => hs) fun _ hd => hd, by simp [Frame.Named]⟩
  | drain | decrement | exchange_set | gauge =>
    exact ⟨h.keep rfl rfl h.registry h.rows h.released,
      by simp [Frame.Named]⟩

theorem ResultStep.named {pc : ResultPc} (hs : ResultStep σ pc σ' fs) (h : σ.Named)
    (hf : (Frame.result pc).Named σ.history.submitted) :
    σ'.Named ∧ ∀ g ∈ fs, g.Named σ'.history.submitted := by
  cases hs with
  | @get_row ev row hr =>
    obtain ⟨hid, hsub⟩ := h.rows ev.scanId row hr
    refine ⟨h.keep rfl rfl h.registry (fun k r hk => ?_) h.released, ?_⟩
    · by_cases hke : k = ev.scanId
      · simp [hke] at hk
      · exact h.rows k r (by simpa [hke] using hk)
    · have hne := (h.proper _ _ hsub).2
      simpa [Frame.Named, ScanTaskRow.withRoot_of_ne hne, hid] using hsub
  | notify_export =>
    refine ⟨h.congr rfl rfl (fun _ => id) (fun _ => id) h.registry h.rows fun k hk => ?_,
      by simp [Frame.Named]⟩
    rcases List.mem_cons.mp hk with rfl | hk
    · exact ⟨_, hf⟩
    · exact h.released k hk
  | insert_exported =>
    exact ⟨h.keep rfl rfl h.registry h.rows h.released,
      by simpa [Frame.Named] using hf⟩
  | exit | event | sentinel | row_missing =>
    exact ⟨h.keep rfl rfl h.registry h.rows h.released,
      by simp [Frame.Named]⟩

theorem MainStep.named {pc : MainPc} (hs : MainStep σ pc σ' fs) (h : σ.Named) :
    σ'.Named ∧ ∀ g ∈ fs, g.Named σ'.history.submitted := by
  cases hs with
  | shutdown =>
    refine ⟨h.withScheduler rfl (fun s hs => ?_) (by simp [Scheduler.shutdown]),
      by simp [Frame.Named]⟩
    rw [Scheduler.state_shutdown]
    split_ifs
    · simp
    · simp
    · exact hs
  | stop_pool | stop_export =>
    exact ⟨h.keep rfl rfl h.registry h.rows h.released,
      by simp [Frame.Named]⟩
  | _ => exact ⟨h, by simp [Frame.Named]⟩

/-- Every step keeps the memory and the frames that it leaves named. -/
theorem Step.named (hs : Step tree σ x f σ' fs) (h : σ.Named)
    (hf : f.Named σ.history.submitted) : σ'.Named ∧ ∀ g ∈ fs, g.Named σ'.history.submitted := by
  cases hs with
  | http hs => exact hs.named h hf
  | run hs => exact hs.named h hf
  | finish hs => exact hs.named h hf
  | result hs => exact hs.named h hf
  | main hs => exact hs.named h
  | cancelScan =>
    exact ⟨h.keep rfl rfl (by simpa using h.registry) h.rows
      h.released, by simp⟩
  | workForever hs =>
    cases hs <;> exact ⟨h.keep rfl rfl h.registry h.rows h.released,
      by simp [Frame.Named]⟩
  | workerJob hs =>
    cases hs <;> exact ⟨h.keep rfl rfl h.registry h.rows h.released,
      by simp [Frame.Named]⟩

theorem Step.submitted_subset (hs : Step tree σ x f σ' fs) :
    σ.history.submitted ⊆ σ'.history.submitted := by
  cases hs with
  | http hs => cases hs with
    | accept => exact List.subset_cons_self _ _
    | _ => exact List.Subset.refl _
  | run hs | finish hs | workForever hs | workerJob hs | result hs | main hs =>
    cases hs <;> exact List.Subset.refl _
  | cancelScan => exact List.Subset.refl _

/-- The memory and all frames are named. -/
structure Submitted (m : DaemonState cfg) : Prop extends m.shared.Named where
  frames : ∀ f ∈ m.frames, f.Named m.shared.history.submitted

theorem Submitted.step (h : Submitted m) (hs : (daemon cfg tree maxScanId).step m a = some m') :
    Submitted m' := by
  obtain ⟨f, rest, fs, R, -, hst, -, hF, hF'⟩ := daemon_step hs
  have hfr := h.frames
  rw [hF] at hfr
  obtain ⟨hσ, hfs⟩ := hst.named h.toNamed (hfr f (Multiset.mem_cons_self _ _))
  refine ⟨hσ, fun g hg => ?_⟩
  rw [hF', Multiset.mem_add] at hg
  rcases hg with hg | hg
  · exact hfs g hg
  · exact (hfr g (Multiset.mem_cons_of_mem hg)).mono hst.submitted_subset

theorem submitted_of_reachable (h : (daemon cfg tree maxScanId).Reachable m) : Submitted m := by
  refine h.invariant ⟨?_, fun f hf => ?_⟩ fun _ _ _ _ _ hs hm => hm.step hs
  · constructor <;> simp [daemon, Shared.new, History.new, Scheduler.new, Manager.new,
      ExportManager.new]
  · obtain ⟨i, hi⟩ := Machine.mem_frames.mp hf
    cases i <;> simp [daemon, initialStack] at hi <;> subst hi <;> simp [Frame.Named, RunPc.data]

end ScanDaemon
