import ScanDaemon.Lifecycle.Drained
import ScanDaemon.Lifecycle.Submitted
import ScanDaemon.Lifecycle.Delivery

/-! # The nodes of a traversal

What a scan has recorded, together with the subtrees of its queued jobs and of
the jobs on the stacks of the workers, covers its tree. The cover only shrinks
when a job is dropped: after a cancellation, or when the pool is stopped.
-/

namespace ScanDaemon

open Interleave

variable {cfg : Config} {tree : ScanId → FsNode} {σ σ' : Shared cfg} {x : Input} {f : Frame}
  {fs : List Frame} {F R : Multiset Frame} {maxScanId : ScanId} {m m' : DaemonState cfg}
  {a : Thread cfg × Input} {s : ScanId}

/-- The events of the subtrees of some jobs. -/
def eventsOf (jobs : List ScanData) : Multiset FileEvent := (jobs.flatMap ScanData.events : List _)

@[simp] theorem eventsOf_nil : eventsOf [] = 0 := rfl

@[simp] theorem eventsOf_cons {data : ScanData} {jobs : List ScanData} :
    eventsOf (data :: jobs) = data.events + eventsOf jobs := rfl

@[simp] theorem eventsOf_append {jobs jobs' : List ScanData} :
    eventsOf (jobs ++ jobs') = eventsOf jobs + eventsOf jobs' := by simp [eventsOf]

@[simp] theorem eventsOf_reverse {jobs : List ScanData} :
    eventsOf jobs.reverse = eventsOf jobs :=
  Multiset.coe_eq_coe.mpr (jobs.reverse_perm.flatMap_right _)

/-- A node and its children make up its subtree. -/
theorem ScanData.event_add_eventsOf (data : ScanData) :
    {data.event} + eventsOf data.children = (data.events : Multiset FileEvent) := by
  rw [data.events_eq]
  rfl

/-- The events of `s` that have been put into the result queue. -/
def ExportManager.recorded (em : ExportManager cfg) (s : ScanId) : Multiset FileEvent :=
  Multiset.filter (fun ev => ev.scanId = s ∧ ev.endSignal.isSentinel = false) em.pushed

/-- The events of the queued jobs of `s`. -/
def Manager.queuedEvents (mg : Manager cfg) (s : ScanId) : Multiset FileEvent :=
  eventsOf (mg.scanPool.jobQueue.container.filter fun data => data.scanId = s)

/-- The events of the jobs of `s` that a frame still has to run or to hand on. -/
@[simp] def jobEvents (s : ScanId) : Frame → Multiset FileEvent
  | .workerJob data pc => if data.scanId = s then eventsOf (pc.todo data) else 0
  | _ => 0

/-- The events of `s` that are recorded or still to come. -/
def covered (s : ScanId) (σ : Shared cfg) (F : Multiset Frame) : Multiset FileEvent :=
  σ.exportManager.recorded s + σ.manager.queuedEvents s + weigh (jobEvents s) F

namespace ExportManager

variable {em : ExportManager cfg} {ev : FileEvent} {rest : List FileEvent}

theorem recorded_pushBack : (em.pushBack ev).recorded s = em.recorded s +
    if ev.scanId = s ∧ ev.endSignal.isSentinel = false then {ev} else 0 := by
  have hp : (em.pushBack ev).pushed = em.pushed ++ [ev] := by simp [pushed]
  rw [recorded, recorded, hp, ← Multiset.coe_add, Multiset.filter_add, Multiset.coe_singleton,
    Multiset.filter_singleton, Multiset.empty_eq_zero]

theorem recorded_receive (hc : em.resultQueue.container = ev :: rest) :
    (em.receive ev rest).recorded s = em.recorded s := by
  simp [recorded, pushed, hc]

end ExportManager

@[simp] theorem eventsOf_filter_cons {jobs : List ScanData} {data : ScanData} :
    eventsOf ((data :: jobs).filter fun data => data.scanId = s) =
      (if data.scanId = s then (data.events : Multiset FileEvent) else 0) +
        eventsOf (jobs.filter fun data => data.scanId = s) := by
  by_cases hs : data.scanId = s <;> simp [hs]

theorem Manager.queuedEvents_pushBack {mg : Manager cfg} {data : ScanData} :
    (mg.withQueue (mg.scanPool.jobQueue.pushBack data)).queuedEvents s =
      mg.queuedEvents s + if data.scanId = s then (data.events : Multiset FileEvent) else 0 := by
  simp [queuedEvents]

theorem Manager.queuedEvents_removed {mg : Manager cfg} {data : ScanData} {rest : List ScanData}
    (hc : mg.scanPool.jobQueue.container = rest ++ [data]) :
    (mg.withQueue (mg.scanPool.jobQueue.removed rest)).queuedEvents s +
      (if data.scanId = s then (data.events : Multiset FileEvent) else 0) = mg.queuedEvents s := by
  simp [queuedEvents, hc]

/-- What a step does to the cover of `s`. -/
inductive Covers (tree : ScanId → FsNode) (s : ScanId) (σ σ' : Shared cfg) (f : Frame)
    (T T' : Multiset FileEvent) : Prop

  | keep : σ'.history.accepted.count s = σ.history.accepted.count s → T' = T →
      Covers tree s σ σ' f T T'

  | accept (data : PendingRoot) : f = .run (.push data) → data.scanId = s →
      σ'.history.accepted = s :: σ.history.accepted →
      T' = T + (rootJob tree data).events → Covers tree s σ σ' f T T'

  /-- the job of the frame, or the rest of it, is dropped -/
  | drop (data : ScanData) (pc : JobPc) : f = .workerJob data pc → data.scanId = s →
      σ'.history.accepted = σ.history.accepted →
      (σ.manager.context s).canceled = true ∨ σ.manager.scanPool.jobQueue.stopFlag = true →
      T' ≤ T → Covers tree s σ σ' f T T'

theorem JobStep.covers {data : ScanData} {pc : JobPc} (hs : JobStep σ data pc σ' fs)
    (hj : (Frame.workerJob data pc).IsJob) (hres : σ.exportManager.resultQueue.stopFlag = false) :
    Covers tree s σ σ' (.workerJob data pc) (covered s σ (.workerJob data pc ::ₘ R))
      (covered s σ' ((fs : Multiset Frame) + R)) := by
  by_cases hid : data.scanId = s
  · cases hs with
    | scan_dropped hr => simp [hres] at hr
    | enter | loop_end | loop_next | submit | slots_free =>
      exact .keep rfl (by simp [covered, JobPc.todo, Manager.queuedEvents])
    | scan =>
      refine .keep rfl ?_
      have he := data.event_add_eventsOf
      simp [covered, JobPc.todo, ExportManager.recorded_pushBack, hid, ← he]
      simp only [← Multiset.singleton_add]
      abel
    | slots_taken | full =>
      have hc := hj _ List.mem_cons_self
      exact .keep rfl (by simp [covered, JobPc.todo, Manager.queuedEvents, hc, hid])
    | pushed =>
      have hc := hj _ List.mem_cons_self
      refine .keep rfl ?_
      simp [covered, JobPc.todo, Manager.queuedEvents_pushBack, hc, hid]
      abel
    | canceled hcan =>
      refine .drop data _ rfl hid rfl (.inl (hid ▸ hcan)) ?_
      simp [covered, hid]
    | loop_break hcan =>
      have hc := hj _ List.mem_cons_self
      refine .drop data _ rfl hid rfl (.inl (hid ▸ hc ▸ hcan)) ?_
      simp [covered, hid]
    | shutdown hstop =>
      refine .drop data _ rfl hid rfl (.inr hstop) ?_
      simp [covered, hid, Manager.queuedEvents, JobPc.todo]
  · refine .keep (by cases hs <;> rfl) ?_
    cases hs with
    | slots_taken | full | pushed | shutdown =>
      have hc := hj _ List.mem_cons_self
      simp [covered, Manager.queuedEvents, hc, hid]
    | _ => simp [covered, ExportManager.recorded_pushBack, Manager.queuedEvents, hid]

theorem RunStep.covers {pc : RunPc} (hs : RunStep tree σ x pc σ' fs) :
    Covers tree s σ σ' (.run pc) (covered s σ (.run pc ::ₘ R))
      (covered s σ' ((fs : Multiset Frame) + R)) := by
  cases hs with
  | @accept data =>
    by_cases hid : data.scanId = s
    · refine .accept data rfl hid (by simp [hid]) ?_
      simp [covered, Manager.queuedEvents_pushBack, rootJob, hid]
      abel
    · refine .keep (by simp [hid]) ?_
      simp [covered, Manager.queuedEvents_pushBack, rootJob, hid]
  | _ => exact .keep rfl (by simp [covered, Manager.queuedEvents])

theorem Step.covers (hs : Step tree σ x f σ' fs) (hj : ∀ data pc, f = .workerJob data pc → f.IsJob)
    (hres : ∀ data pc, f = .workerJob data pc → σ.exportManager.resultQueue.stopFlag = false)
    (hf : f.Sealed) :
    Covers tree s σ σ' f (covered s σ (f ::ₘ R)) (covered s σ' ((fs : Multiset Frame) + R)) := by
  cases hs with
  | workerJob hs => exact hs.covers (hj _ _ rfl) (hres _ _ rfl)
  | run hs => exact hs.covers
  | cancelScan => exact .keep rfl (by simp [covered, Manager.queuedEvents])
  | workForever hs =>
    cases hs with
    | exit => exact .keep rfl (by simp [covered, Manager.queuedEvents])
    | take hc =>
      refine .keep rfl ?_
      simp [covered, JobPc.todo, ← Manager.queuedEvents_removed (s := s) hc]
      split_ifs <;> abel
  | result hs =>
    cases hs with
    | event hc | sentinel hc =>
      exact .keep rfl (by simp [covered, ExportManager.recorded_receive hc])
    | _ => exact .keep rfl (by simp [covered, ExportManager.recorded, ExportManager.pushed])
  | finish hs =>
    cases hs with
    | push_sentinel =>
      exact .keep rfl (by simp [covered, ExportManager.recorded_pushBack, hf.1.1])
    | _ =>
      exact .keep rfl (by simp [covered, ExportManager.recorded, ExportManager.pushed,
        Manager.queuedEvents])
  | http hs | main hs =>
    cases hs <;> exact .keep rfl (by simp [covered, ExportManager.recorded, ExportManager.pushed,
        Manager.queuedEvents])

/-- A worker that has a job finds the result queue open. -/
theorem WellFormed.results_open (h : WellFormed m) {data : ScanData} {pc : JobPc}
    {rest : List Frame} (hf : m.stack a.1 = .workerJob data pc :: rest) :
    m.shared.exportManager.resultQueue.stopFlag = false := by
  have hsh := h.shape a.1
  rw [hf] at hsh
  obtain ⟨j, hj⟩ := hsh.worker.2
  by_contra hstop
  have hrank := h.flags.results.mp (by simpa using hstop)
  have hnil := h.worker_exited (by omega) j
  rw [hj, hnil] at hf
  cases hf

theorem covers_of_step (h : (daemon cfg tree maxScanId).Reachable m)
    (hs : (daemon cfg tree maxScanId).step m a = some m') (s : ScanId) :
    ∃ f ∈ m.top a.1, Covers tree s m.shared m'.shared f (covered s m.shared m.frames)
      (covered s m'.shared m'.frames) := by
  have hsound := sound_of_reachable h
  obtain ⟨f, rest, fs, R, hf, hst, -, hF, hF'⟩ := daemon_step hs
  have hsh := hsound.shape a.1
  rw [hf] at hsh
  refine ⟨f, Machine.top_of_stack hf, ?_⟩
  have hsealed := sealed_of_reachable h f (by rw [hF]; exact Multiset.mem_cons_self _ _)
  rw [hF, hF']
  refine hst.covers (fun data pc he => ?_) (fun data pc he => ?_) hsealed
  · subst he; exact hsh.worker.1
  · subst he; exact hsound.results_open hf

/-- The root of an accepted scan was submitted before its acceptance. -/
theorem submitted_of_accepted (h : (daemon cfg tree maxScanId).Reachable m)
    (hs : (daemon cfg tree maxScanId).step m a = some m') {root : Path}
    (ha : s ∈ m.shared.history.accepted) (hp : (s, root) ∈ m'.shared.history.submitted) :
    (s, root) ∈ m.shared.history.submitted := by
  have hv := (sound_of_reachable h).valid s
  have hacc : 0 < (life s m).accepted := List.count_pos_iff.mpr ha
  obtain ⟨f, rest, fs, R, hf, hst, -⟩ := daemon_step hs
  generalize m'.shared = τ at hst hp
  cases hst with
  | http hst =>
    cases hst with
    | accept _ _ hn =>
      rcases List.mem_cons.mp hp with he | hp
      · obtain ⟨rfl, -⟩ := Prod.mk.inj he
        have h₁ := (hv.before (.inl hn)).2
        omega
      · exact hp
    | _ => exact hp
  | run hst | finish hst | workForever hst | workerJob hst | result hst | main hst =>
    cases hst <;> exact hp
  | cancelScan => exact hp

theorem Life.Step.canceled_stays {v w : Life} (hs : Life.Step s v w) (hv : v.Valid s)
    (ha : 0 < v.accepted + v.rejected) (hc : v.canceled = true) : w.canceled = true := by
  cases hs with
  | register hp =>
    have h₁ := hv.of_early (by rw [hp]; rfl)
    omega
  | cancel_scan => simp [hc]
  | _ => exact hc

/-- The flag of a scan that has been handed to the pool is never cleared. -/
theorem canceled_stays (h : (daemon cfg tree maxScanId).Reachable m)
    (hs : (daemon cfg tree maxScanId).step m a = some m')
    (ha : s ∈ m.shared.history.accepted ∨ s ∈ m.shared.history.rejected)
    (hc : (m.shared.manager.context s).canceled = true) :
    (m'.shared.manager.context s).canceled = true := by
  have hsound := sound_of_reachable h
  rcases Relation.reflGen_iff _ _ _ |>.mp (hsound.lives hs s) with hl | hl
  · have hcan : (life s m').canceled = (life s m).canceled := by rw [hl]
    exact hcan.trans hc
  · refine hl.canceled_stays (hsound.valid s) ?_ hc
    rw [← List.count_pos_iff, ← List.count_pos_iff] at ha
    exact Nat.add_pos_iff_pos_or_pos.mpr ha

/-- What is recorded of a scan, or still to come, is part of its tree. -/
structure Covering (tree : ScanId → FsNode) (m : DaemonState cfg) : Prop where
  fresh : ∀ s, s ∉ m.shared.history.accepted → covered s m.shared m.frames = 0
  bounded : ∀ s root, (s, root) ∈ m.shared.history.submitted →
    covered s m.shared m.frames ≤ (rootJob tree ⟨s, root⟩).events

/-- The scans that are accepted and not canceled are covered. -/
def Exhaustive (tree : ScanId → FsNode) (m : DaemonState cfg) : Prop :=
  ∀ s root, (s, root) ∈ m.shared.history.submitted → s ∈ m.shared.history.accepted →
    (m.shared.manager.context s).canceled = true ∨
      covered s m.shared m.frames = (rootJob tree ⟨s, root⟩).events

/-- The root job that `run` hands to the pool is the first one of its scan and has its root. -/
theorem accept_cases (h : (daemon cfg tree maxScanId).Reachable m) {data : PendingRoot}
    (hf : m.top a.1 = some (.run (.push data))) :
    data.scanId ∉ m.shared.history.accepted ∧
      (data.scanId, data.root) ∈ m.shared.history.submitted := by
  have hsound := sound_of_reachable h
  have hmem := Machine.mem_frames_of_top hf
  refine ⟨fun ha => ?_, (submitted_of_reachable h).frames _ hmem data rfl⟩
  have hp : (life data.scanId m).phase = .push := by
    simpa [life, lifeOf] using hsound.runPhase_eq hmem data.scanId
  have h₁ := (hsound.valid data.scanId).of_early (by rw [hp]; rfl)
  have h₂ : 0 < (life data.scanId m).accepted := List.count_pos_iff.mpr ha
  omega

theorem submitted_of_mem_accepted (h : (daemon cfg tree maxScanId).Reachable m)
    (ha : s ∈ m.shared.history.accepted) : ∃ root, (s, root) ∈ m.shared.history.submitted := by
  refine h.invariant (P := fun m => s ∈ m.shared.history.accepted →
    ∃ root, (s, root) ∈ m.shared.history.submitted) ?_ (fun n a n' hn _ hs hk ha => ?_) ha
  · simp [daemon, Shared.new, History.new]
  · obtain ⟨f, _, _, _, hf, hst, -⟩ := daemon_step hs
    rcases hst.accepted_eq with he | ⟨data, rfl, he⟩ <;> rw [he] at ha
    · exact (hk ha).imp fun root hr => hst.submitted_subset hr
    · rcases List.mem_cons.mp ha with rfl | ha
      · exact ⟨data.root,
          hst.submitted_subset (accept_cases hn (Machine.top_of_stack hf)).2⟩
      · exact (hk ha).imp fun root hr => hst.submitted_subset hr

theorem Covering.step (h : (daemon cfg tree maxScanId).Reachable m) (hc : Covering tree m)
    (hs : (daemon cfg tree maxScanId).step m a = some m') : Covering tree m' := by
  have hsub' := submitted_of_reachable (h.step trivial hs)
  obtain ⟨f₀, _, _, _, -, hst, -⟩ := daemon_step hs
  have hbound : ∀ s root, (s, root) ∈ m'.shared.history.submitted →
      s ∈ m.shared.history.accepted →
      covered s m.shared m.frames ≤ (rootJob tree ⟨s, root⟩).events := fun s root hp ha =>
    hc.bounded s root (submitted_of_accepted h hs ha hp)
  refine ⟨fun s ha => ?_, fun s root hp => ?_⟩
  · have ha₀ : s ∉ m.shared.history.accepted := fun hm => ha (hst.accepted_subset hm)
    obtain ⟨f, -, hcov⟩ := covers_of_step h hs s
    cases hcov with
    | keep _ hT => rw [hT]; exact hc.fresh s ha₀
    | accept data _ _ hacc => exact absurd (hacc ▸ List.mem_cons_self) ha
    | drop _ _ _ _ _ _ hT => exact Multiset.le_zero.mp (hc.fresh s ha₀ ▸ hT)
  · obtain ⟨f, hf, hcov⟩ := covers_of_step h hs s
    have hkeep : covered s m.shared m.frames ≤ (rootJob tree ⟨s, root⟩).events := by
      by_cases ha : s ∈ m.shared.history.accepted
      · exact hbound s root hp ha
      · rw [hc.fresh s ha]; exact Multiset.zero_le _
    cases hcov with
    | keep _ hT => rw [hT]; exact hkeep
    | drop _ _ _ _ _ _ hT => exact hT.trans hkeep
    | accept data he hid _ hT =>
      subst he hid
      obtain ⟨hfresh, hnamed⟩ := accept_cases h hf
      have hroot := hsub'.unique _ _ _ hp (hst.submitted_subset hnamed)
      rw [hT, hc.fresh _ hfresh, hroot, zero_add]

theorem covering_of_reachable (h : (daemon cfg tree maxScanId).Reachable m) :
    Covering tree m := by
  have hz : ∀ s, covered s (daemon cfg tree maxScanId).init.shared
      (daemon cfg tree maxScanId).init.frames = 0 := by
    intro s
    have hw : weigh (jobEvents s) (daemon cfg tree maxScanId).init.frames = 0 :=
      weigh_initial (w := jobEvents s) fun i f hf => by
        cases i <;> simp [initialStack] at hf <;> subst hf <;> rfl
    rw [covered, hw]
    simp [daemon, Shared.new, ExportManager.recorded, ExportManager.pushed, ExportManager.new,
      JobQueue.new, Manager.queuedEvents, Manager.new]
  refine h.invariant ⟨fun s _ => hz s, fun s root _ => ?_⟩ fun _ _ _ hn _ hs hc => hc.step hn hs
  rw [hz]
  exact Multiset.zero_le _

/-- A scan stays covered as long as the stopped pool has only jobs of canceled scans. -/
theorem Exhaustive.step (h : (daemon cfg tree maxScanId).Reachable m) (he : Exhaustive tree m)
    (hstop : m.shared.manager.scanPool.jobQueue.stopFlag = true → ∀ s, 0 < (life s m).jobs →
      (m.shared.manager.context s).canceled = true)
    (hs : (daemon cfg tree maxScanId).step m a = some m') : Exhaustive tree m' := by
  have hsound := sound_of_reachable h
  have hsub' := submitted_of_reachable (h.step trivial hs)
  obtain ⟨f₀, _, _, _, -, hst, -⟩ := daemon_step hs
  intro s root hp ha'
  have hstays : s ∈ m.shared.history.accepted → (m.shared.manager.context s).canceled = true →
      (m'.shared.manager.context s).canceled = true := fun ha => canceled_stays h hs (.inl ha)
  obtain ⟨f, hf, hcov⟩ := covers_of_step h hs s
  cases hcov with
  | keep hacc hT =>
    have ha : s ∈ m.shared.history.accepted := by
      rwa [← List.count_pos_iff, ← hacc, List.count_pos_iff]
    rw [hT]
    exact (he s root (submitted_of_accepted h hs ha hp) ha).imp_left (hstays ha)
  | accept data he hid _ hT =>
    subst he hid
    obtain ⟨hfresh, hnamed⟩ := accept_cases h hf
    have hroot := hsub'.unique _ _ _ hp (hst.submitted_subset hnamed)
    exact .inr (by rw [hT, (covering_of_reachable h).fresh _ hfresh, hroot, zero_add])
  | drop data pc he hid hacc hwhy hT =>
    rw [hacc] at ha'
    refine .inl (hstays ha' (hwhy.elim id fun hps => hstop hps s ?_))
    subst he hid
    have hw := le_weigh (w := jobWeight data.scanId) (Machine.mem_frames_of_top hf)
    simp only [jobWeight, if_true] at hw
    simp only [life, lifeOf]
    omega

/-- A drained scan has nothing left to record. -/
theorem covered_of_drained (h : Sound m) (hd : 0 < m.shared.history.drained.count s) :
    covered s m.shared m.frames = m.shared.exportManager.recorded s := by
  have hv := h.valid s
  have hj : (life s m).jobs = 0 := by
    by_contra hj
    have h₁ := (hv.of_jobs (Nat.pos_of_ne_zero hj)).2.1
    have h₂ : (life s m).drained = m.shared.history.drained.count s := rfl
    omega
  obtain ⟨hw, hq⟩ := Nat.add_eq_zero_iff.mp hj
  have hframes : weigh (jobEvents s) m.frames = 0 := by
    refine weigh_eq_zero fun f hf => ?_
    have hz := weigh_eq_zero_iff.mp hw f hf
    cases f with
    | workerJob data pc =>
      have hne : data.scanId ≠ s := fun he => by simp [he] at hz
      simp [hne]
    | _ => rfl
  have hqueue : m.shared.manager.queuedEvents s = 0 := by
    have hnil : m.shared.manager.scanPool.jobQueue.container.filter
        (fun data => data.scanId = s) = [] := by
      rw [List.countP_eq_zero] at hq
      exact List.filter_eq_nil_iff.mpr hq
    rw [Manager.queuedEvents, hnil, eventsOf_nil]
  rw [covered, hframes, hqueue, add_zero, add_zero]

/-- All events of the tree of `s` are among `evs`. -/
def RecordsAll (tree : ScanId → FsNode) (sub : List (ScanId × Path)) (s : ScanId)
    (evs : List FileEvent) : Prop :=
  ∃ root, (s, root) ∈ sub ∧ ∀ ev ∈ (rootJob tree ⟨s, root⟩).events, ev ∈ evs

theorem RecordsAll.mono {sub sub' : List (ScanId × Path)} {evs evs' : List FileEvent}
    (h : RecordsAll tree sub s evs) (hsub : sub ⊆ sub') (hevs : evs ⊆ evs') :
    RecordsAll tree sub' s evs' := by
  obtain ⟨root, hr, h⟩ := h
  exact ⟨root, hsub hr, fun ev hev => hevs (h ev hev)⟩

/-- An accepted scan that is drained and not canceled has recorded its tree. -/
theorem Exhaustive.recordsAll (he : Exhaustive tree m)
    (h : (daemon cfg tree maxScanId).Reachable m) (ha : s ∈ m.shared.history.accepted)
    (hd : 0 < m.shared.history.drained.count s)
    (hc : (m.shared.manager.context s).canceled = false) :
    RecordsAll tree m.shared.history.submitted s m.shared.exportManager.pushed := by
  obtain ⟨root, hr⟩ := submitted_of_mem_accepted h ha
  refine ⟨root, hr, fun ev hev => ?_⟩
  have hcov := (he s root hr ha).resolve_left (by simp [hc])
  rw [covered_of_drained (sound_of_reachable h) hd] at hcov
  have hmem : ev ∈ m.shared.exportManager.recorded s := by rw [hcov]; exact hev
  exact Multiset.mem_of_mem_filter hmem

end ScanDaemon
