import ScanDaemon.Traversal.Termination

/-! # The traversal completes

As long as the daemon is not disturbed, every scan puts one sentinel into the
result queue, after all its events. When neither a worker nor the result thread
can take a step, all accepted scans are drained.
-/

namespace ScanDaemon

open Interleave

variable {cfg : Config} {tree : ScanId → FsNode} {σ σ' : Shared cfg} {x : Input} {f : Frame}
  {fs : List Frame} {F F' R : Multiset Frame} {maxScanId : ScanId} {m m' : DaemonState cfg}
  {a : Thread cfg × Input} {s : ScanId}

/-- The sentinels of `s` that have been put into the result queue. -/
def ExportManager.announcedEnds (em : ExportManager cfg) (s : ScanId) : ℕ :=
  em.pushed.countP fun ev => ev.Ends s

/-- One sentinel has been pushed for each row, and no event of its scan comes after it. -/
structure Ordered (σ : Shared cfg) (F : Multiset Frame) : Prop where
  count : ∀ s, σ.exportManager.announcedEnds s = weigh (storing s) F + σ.history.storedRows s
  last : ∀ pre ev post, σ.exportManager.pushed = pre ++ ev :: post →
    ev.endSignal.isSentinel = true → ∀ e ∈ post, e.scanId ≠ ev.scanId

/-- No sentinel of a scan has been pushed that still has something to push. -/
theorem Ordered.unannounced (h : Ordered σ F)
    (hz : weigh (storing s) F + σ.history.storedRows s = 0) :
    ∀ ev ∈ σ.exportManager.pushed, ¬ev.Ends s := by
  have hc := h.count s
  rw [hz, ExportManager.announcedEnds, List.countP_eq_zero] at hc
  exact fun ev hev => by simpa using hc ev hev

/-- A pushed event belongs to a scan of which no sentinel has been pushed. -/
theorem Ordered.push (h : Ordered σ F) {e : FileEvent}
    (hz : weigh (storing e.scanId) F + σ.history.storedRows e.scanId = 0)
    (hp : σ'.exportManager.pushed = σ.exportManager.pushed ++ [e])
    {pre post : List FileEvent} {ev : FileEvent}
    (hs : σ'.exportManager.pushed = pre ++ ev :: post) (he : ev.endSignal.isSentinel = true) :
    ∀ e ∈ post, e.scanId ≠ ev.scanId := by
  rw [hp] at hs
  rcases append_singleton_eq hs with ⟨rfl, -, -⟩ | ⟨post', rfl, hs'⟩
  · simp
  · intro e' he'
    rcases List.mem_append.mp he' with he' | he'
    · exact h.last pre ev post' hs' he e' he'
    · rw [List.mem_singleton.mp he']
      intro hid
      exact h.unannounced hz ev (by simp [hs']) ⟨he, hid.symm⟩

theorem Ordered.keep (h : Ordered σ F)
    (hp : σ'.exportManager.pushed = σ.exportManager.pushed)
    (hw : ∀ s, weigh (storing s) F' + σ'.history.storedRows s =
      weigh (storing s) F + σ.history.storedRows s) : Ordered σ' F' where
  count s := by rw [hw, ← h.count s, ExportManager.announcedEnds, hp, ExportManager.announcedEnds]
  last := by rw [hp]; exact h.last

theorem ExportManager.announcedEnds_pushBack {em : ExportManager cfg} {ev : FileEvent} :
    (em.pushBack ev).announcedEnds s = em.announcedEnds s + if ev.Ends s then 1 else 0 := by
  simp [announcedEnds, pushed, List.countP_singleton, Nat.add_assoc]

/-- Every step keeps the order: a scan that pushes has no row stored or about to be stored. -/
theorem Step.ordered (hs : Step tree σ x f σ' fs) (h : Ordered σ (f ::ₘ R)) (hf : f.Sealed)
    (hres : σ.exportManager.resultQueue.stopFlag = false)
    (hjob : ∀ data pc, f = .workerJob data pc →
      weigh (storing data.scanId) (f ::ₘ R) + σ.history.storedRows data.scanId = 0)
    (hpush : ∀ id fake row, f = .finish id (.pushSentinel fake row) →
      weigh (storing id) (f ::ₘ R) + σ.history.storedRows id = 0) :
    Ordered σ' ((fs : Multiset Frame) + R) := by
  cases hs with
  | workerJob hs =>
    cases hs with
    | @scan =>
      have hz := hjob _ _ rfl
      have hp : (σ.exportManager.pushBack (ScanData.event ‹_›)).pushed =
        σ.exportManager.pushed ++ [ScanData.event ‹_›] := by simp [ExportManager.pushed]
      refine ⟨fun s => ?_, fun pre ev post hsplit he => h.push (by simpa using hz) hp hsplit he⟩
      have hc := h.count s
      simpa [ExportManager.announcedEnds_pushBack, ScanData.not_ends] using hc
    | _ => exact h.keep rfl (by simp)
  | finish hs =>
    cases hs with
    | push_dropped hr => simp [hres] at hr
    | @push_sentinel fake row =>
      obtain ⟨⟨he, hid⟩, hrow⟩ := hf
      have hz := hpush _ _ _ rfl
      have hp : (σ.exportManager.pushBack fake).pushed = σ.exportManager.pushed ++ [fake] := by
        simp [ExportManager.pushed]
      refine ⟨fun s => ?_, fun pre ev post hsplit he =>
        h.push (by rw [hid]; exact hz) hp hsplit he⟩
      have hc := h.count s
      simp [ExportManager.announcedEnds_pushBack, FileEvent.Ends, he, hid, hrow] at hc ⊢
      omega
    | insert_row =>
      refine h.keep rfl fun s => ?_
      simp [History.storedRows, List.countP_cons]
      omega
    | _ => exact h.keep rfl (by simp [History.storedRows])
  | result hs =>
    cases hs with
    | event hc | sentinel hc => exact h.keep (by simp [ExportManager.pushed, hc]) (by simp)
    | _ => exact h.keep rfl (by simp [History.storedRows])
  | cancelScan => exact h.keep rfl (by simp)
  | http hs | run hs | workForever hs | main hs =>
    cases hs <;> exact h.keep rfl (by simp [History.storedRows])

theorem ordered_of_reach (h : (daemon cfg tree maxScanId).Reach Undisturbed m) :
    Ordered m.shared m.frames := by
  refine h.invariant (P := fun m => Ordered m.shared m.frames) ⟨fun s => ?_, ?_⟩
    fun n a n' hn hok hs ho => ?_
  · rw [weigh_initial (w := storing s) fun i f hf => by
      cases i <;> simp [initialStack] at hf <;> subst hf <;> rfl]
    rfl
  · simp [daemon, Shared.new, ExportManager.new, ExportManager.pushed, JobQueue.new]
  · have hsound := sound_of_reachable hn.reachable
    have hres := (busy_of_reach hn).results_open hsound
    obtain ⟨f, rest, fs, R, hf, hst, -, hF, hF'⟩ := daemon_step hs
    have hmem : f ∈ n.frames := by rw [hF]; exact Multiset.mem_cons_self _ _
    have hjob : ∀ data pc, f = .workerJob data pc →
        weigh (storing data.scanId) n.frames + n.shared.history.storedRows data.scanId = 0 := by
      rintro data pc rfl
      have hw := le_weigh (w := jobWeight data.scanId) hmem
      have hv := hsound.valid data.scanId
      have hj : 0 < (life data.scanId n).jobs := by
        simp only [jobWeight, if_true] at hw
        simp only [life, lifeOf]
        omega
      have h₁ := (hv.of_jobs hj).2.1
      have h₂ := hv.closing
      have h₃ : (life data.scanId n).closed = weigh (rowWeight data.scanId) n.frames +
        n.shared.history.storedRows data.scanId := rfl
      have h₄ := storing_le (s := data.scanId) (F := n.frames)
      omega
    have hpush : ∀ id fake row, f = .finish id (.pushSentinel fake row) →
        weigh (storing id) n.frames + n.shared.history.storedRows id = 0 := by
      rintro id fake row rfl
      have h₁ := hsound.row_once id
      have h₂ := storing_le (s := id) (F := R)
      rw [hF] at h₁ ⊢
      have hrow := (sealed_of_reachable hn.reachable _ hmem).2
      simp [hrow] at h₁ ⊢
      omega
    rw [hF] at ho hjob hpush
    rw [hF']
    exact hst.ordered ho (sealed_of_reachable hn.reachable f hmem) hres hjob hpush

/-- No worker can take a step, and neither can the result thread. -/
def Idle (D : System (DaemonState cfg) (Thread cfg × Input)) (m : DaemonState cfg) : Prop :=
  ∀ i x, (∃ j, i = .worker j) ∨ i = .result → D.step m (i, x) = none

/-! ## What blocks -/

theorem full_of_pushResultQueue {em : ExportManager cfg} {ev : FileEvent}
    (h : em.pushResultQueue ev = none) : cfg.queSize ≤ em.resultQueue.container.length :=
  (JobQueue.push_eq_none (Option.map_eq_none_iff.mp h)).2

theorem execFinish_eq_none {id : ScanId} {pc : FinishPc} (h : execFinish σ x id pc = none) :
    ∃ fake row, pc = .pushSentinel fake row ∧ σ.exportManager.pushResultQueue fake = none := by
  cases pc with
  | pushSentinel fake row => exact ⟨fake, row, rfl, Option.map_eq_none_iff.mp h⟩
  | takeTask t c =>
    simp only [execFinish] at h
    split at h
    · cases h
    · split_ifs at h
  | decrement | exchange => simp only [execFinish] at h; split_ifs at h
  | _ => cases h

theorem execJob_eq_none {data : ScanData} {pc : JobPc} (h : execJob σ data pc = none) :
    pc = .scan ∧ σ.exportManager.pushResultQueue data.scanOneNode.1 = none := by
  cases pc with
  | scan => exact ⟨rfl, Option.map_eq_none_iff.mp h⟩
  | loop rest =>
    cases rest with
    | nil => cases h
    | cons c rest => simp only [execJob] at h; split_ifs at h
  | entry | slots => simp only [execJob] at h; split_ifs at h
  | submit => cases h
  | push child rest => simp only [execJob] at h; split at h <;> cases h

theorem execResult_eq_none {pc : ResultPc} (h : execResult σ pc = none) :
    pc = .pop ∧ σ.exportManager.resultQueue.container = [] := by
  cases pc with
  | pop =>
    simp only [execResult] at h
    split at h
    · exact ⟨rfl, (JobQueue.pop_eq_none ‹_›).1⟩
    · cases h
    · cases h
  | getRow ev => simp only [execResult] at h; split at h <;> cases h
  | _ => cases h

theorem execWorker_eq_none (h : execWorker σ = none) :
    σ.manager.scanPool.jobQueue.container = [] := by
  unfold execWorker at h
  split at h
  · exact (JobQueue.pop_eq_none ‹_›).1
  · cases h
  · cases h

/-- When no worker and no result thread can go on, there is nothing to do. -/
theorem idle_stacks (h : (daemon cfg tree maxScanId).Reach Undisturbed m)
    (hq : 0 < cfg.queSize) (hidle : Idle (daemon cfg tree maxScanId) m) :
    m.stack .result = [.result .pop] ∧
      ∀ i, m.stack (.worker i) = [.workForever] ∧
        m.shared.manager.scanPool.jobQueue.container = [] := by
  have hsound := sound_of_reachable h.reachable
  have hb := busy_of_reach h
  have hres : m.stack .result = [.result .pop] ∧
      m.shared.exportManager.resultQueue.container = [] := by
    have hsh : ResultShape (m.stack .result) := hsound.shape .result
    have hne := hb.result
    generalize hl : m.stack .result = l at hsh hne
    cases hsh with
    | exited => exact absurd rfl hne
    | running pc =>
      have he := Machine.exec_of_step_eq_none (hidle .result ⟨none, 0, false⟩ (.inr rfl)) hl
      obtain ⟨rfl, hc⟩ := execResult_eq_none he
      exact ⟨rfl, hc⟩
  refine ⟨hres.1, fun i => ?_⟩
  have hsh : WorkerShape (m.stack (.worker i)) := hsound.shape (.worker i)
  have hne := hb.workers i
  have hexec : ∀ f rest, m.stack (.worker i) = f :: rest →
      exec tree m.shared ⟨none, 0, false⟩ f = none := fun f rest hf =>
    Machine.exec_of_step_eq_none (hidle (.worker i) ⟨none, 0, false⟩ (.inl ⟨i, rfl⟩)) hf
  have hempty : ¬cfg.queSize ≤ m.shared.exportManager.resultQueue.container.length := by
    rw [hres.2, List.length_nil]
    omega
  generalize m.stack (.worker i) = l at hsh hne hexec
  cases hsh with
  | exited => exact absurd rfl hne
  | @working jobs hj =>
    cases jobs with
    | nil => exact ⟨rfl, execWorker_eq_none (hexec _ _ rfl)⟩
    | cons f jobs =>
      have he := hexec f _ rfl
      have hf := hj f List.mem_cons_self
      cases f with
      | workerJob data pc =>
        exact absurd (full_of_pushResultQueue (execJob_eq_none he).2) hempty
      | finish id pc =>
        obtain ⟨fake, row, -, hp⟩ := execFinish_eq_none he
        exact absurd (full_of_pushResultQueue hp) hempty
      | _ => exact hf.elim

/-- A frame of an idle daemon is not part of a traversal. -/
def Frame.Resting : Frame → Prop
  | .workerJob _ _ | .finish _ _ => False
  | _ => True

theorem idle_frames (h : (daemon cfg tree maxScanId).Reach Undisturbed m)
    (hq : 0 < cfg.queSize) (hidle : Idle (daemon cfg tree maxScanId) m) :
    ∀ f ∈ m.frames, f.Resting := by
  have hsound := sound_of_reachable h.reachable
  obtain ⟨hres, hwork⟩ := idle_stacks h hq hidle
  intro f hf
  obtain ⟨i, hi⟩ := Machine.mem_frames.mp hf
  have hsh := hsound.shape i
  cases i with
  | http _ =>
    have hhttp := hsh f hi
    cases f <;> trivial
  | run =>
    have hrun := (busy_of_reach h).run
    change RunShape (m.stack .run) at hsh
    generalize m.stack .run = l at hsh hi hrun
    cases hsh with
    | exited => simp at hi
    | running pc => rw [List.mem_singleton.mp hi]; trivial
    | refused data pc => exact absurd List.mem_cons_self (hrun _ _)
    | canceling id =>
      simp only [List.mem_cons, List.not_mem_nil, or_false] at hi
      rcases hi with rfl | rfl <;> trivial
  | worker i =>
    rw [(hwork i).1] at hi
    rw [List.mem_singleton.mp hi]
    trivial
  | result =>
    rw [hres] at hi
    rw [List.mem_singleton.mp hi]
    trivial
  | main =>
    change MainShape (m.stack .main) at hsh
    generalize m.stack .main = l at hsh hi
    cases hsh with
    | exited => simp at hi
    | running pc => rw [List.mem_singleton.mp hi]; trivial
    | canceling id todo all =>
      simp only [List.mem_cons, List.not_mem_nil, or_false] at hi
      rcases hi with rfl | rfl <;> trivial

/-- In an idle daemon every accepted scan is drained and has its row stored. -/
theorem drained_of_idle (h : (daemon cfg tree maxScanId).Reach Undisturbed m)
    (hn : 0 < cfg.scanPoolNumThreads) (hq : 0 < cfg.queSize)
    (hidle : Idle (daemon cfg tree maxScanId) m) (ha : s ∈ m.shared.history.accepted) :
    m.shared.history.drained.count s = 1 ∧ (m.shared.manager.context s).unfinishedJobs = 0 ∧
      weigh (storing s) m.frames + m.shared.history.storedRows s = 1 := by
  have hsound := sound_of_reachable h.reachable
  have hv := hsound.valid s
  have hrest := idle_frames h hq hidle
  have hz : ∀ w : Frame → ℕ, (∀ f, f.Resting → w f = 0) → weigh w m.frames = 0 := fun w hw =>
    weigh_eq_zero fun f hf => hw f (hrest f hf)
  have hc := ((idle_stacks h hq hidle).2 ⟨0, hn⟩).2
  have hjobs : (life s m).jobs = 0 := by
    simp only [life, lifeOf, hc, List.countP_nil, Nat.add_zero]
    exact hz _ fun f hf => by cases f <;> trivial
  have hstages : ∀ k, weigh (finishing s k) m.frames = 0 := fun k =>
    hz _ fun f hf => by cases f <;> trivial
  have hrows : weigh (rowWeight s) m.frames = 0 := hz _ fun f hf => by cases f <;> trivial
  have hacc : (life s m).accepted = 1 := by
    have h₁ := hv.once
    have h₂ : 0 < (life s m).accepted := List.count_pos_iff.mpr ha
    omega
  have hrej : (life s m).rejected = 0 := by
    simp [life, lifeOf, (busy_of_reach h).rejected]
  have hdrained : (life s m).drained = 1 := by
    have h₁ := hv.drain
    rw [hjobs] at h₁
    simp only [lt_irrefl, if_false] at h₁
    omega
  have hsne : s ≠ 0 := by
    obtain ⟨root, hr⟩ := submitted_of_mem_accepted h.reachable ha
    exact ((submitted_of_reachable h.reachable).proper s root hr).1
  refine ⟨hdrained, ?_, ?_⟩
  · have h₁ := hv.counter
    have h₂ : (life s m).phase.counted = 0 := by
      rcases hv.accepted hacc with hp | ⟨q, hp⟩ <;> rw [hp] <;> rfl
    rw [hjobs, h₂] at h₁
    exact h₁
  · have h₁ := hv.closing_eq hsne
    have h₂ : (life s m).closed =
        weigh (rowWeight s) m.frames + m.shared.history.storedRows s := rfl
    have h₃ : (life s m).notifying = 0 := hstages .notifyFinished
    have h₄ : (life s m).reading = 0 := hstages .readCanceled
    have h₅ : (life s m).taking = 0 := hstages .takeTask
    have h₆ := storing_le (s := s) (F := m.frames)
    omega

theorem exhaustive_of_reach (h : (daemon cfg tree maxScanId).Reach Undisturbed m) :
    Exhaustive tree m := by
  refine h.invariant (P := Exhaustive tree) ?_ fun n a n' hn _ hs he =>
    he.step hn.reachable (fun hp => ?_) hs
  · simp [Exhaustive, daemon, Shared.new, History.new]
  · have hopen := (busy_of_reach hn).pool_open (sound_of_reachable hn.reachable)
    simp [hopen] at hp

theorem recorded_le_covered : m.shared.exportManager.recorded s ≤
    covered s m.shared m.frames := by
  rw [covered, add_assoc]
  exact Multiset.le_add_right _ _

theorem Shape.of_traverses {i : Thread cfg} {rest : List Frame} (h : Shape i (f :: rest))
    (hi : i.Traverses) : f.IsJob ∨ f = .workForever ∨ ∃ pc, f = .result pc := by
  cases i with
  | worker j => exact (WorkerShape.isJob h).imp_right .inl
  | result => cases h; exact .inr (.inr ⟨_, rfl⟩)
  | http _ | run | main => exact hi.elim

theorem Frame.cost_of_traverses {i : Thread cfg} {rest : List Frame} (h : Shape i (f :: rest))
    (hi : i.Traverses) : f.cost = 1 := by
  rcases h.of_traverses hi with hj | rfl | ⟨pc, rfl⟩
  · cases f <;> first | rfl | exact hj.elim
  · rfl
  · rfl

theorem work_of_step (h : (daemon cfg tree maxScanId).Reach Undisturbed m)
    (hok : Undisturbed m a) (hs : (daemon cfg tree maxScanId).step m a = some m') :
    (if a.1.Traverses then 1 else 0) + work m'.shared m'.frames +
        brought tree m.shared.history.accepted ≤
      work m.shared m.frames + brought tree m'.shared.history.accepted := by
  have hsound := sound_of_reachable h.reachable
  have hb := busy_of_reach h
  obtain ⟨f, rest, fs, R, hf, hst, -, hF, hF'⟩ := daemon_step hs
  have hsh := hsound.shape a.1
  rw [hf] at hsh
  have hwork := hst.work_le (R := R) (hok f (Machine.top_of_stack hf)) (hb.pool_open hsound)
    (hb.results_open hsound)
  rw [hF, hF']
  split_ifs with hi
  · rwa [← Frame.cost_of_traverses hsh hi]
  · omega

theorem work_initial : work (daemon cfg tree maxScanId).init.shared
    (daemon cfg tree maxScanId).init.frames = 0 := by
  rw [work, weigh_initial (w := workWeight) fun i f hf => by
    cases i <;> simp [initialStack] at hf <;> subst hf <;> rfl]
  rfl

/-- At any time a counter has been drained at most once, no node has been recorded twice, and at
most one sentinel has been pushed. -/
theorem recorded_once (h : (daemon cfg tree maxScanId).Reach Undisturbed m) (s : ScanId) :
    m.shared.history.drained.count s ≤ 1 ∧
      (∀ root, (s, root) ∈ m.shared.history.submitted →
        m.shared.exportManager.recorded s ≤ (rootJob tree ⟨s, root⟩).events) ∧
      m.shared.exportManager.announcedEnds s ≤ 1 := by
  have hsound := sound_of_reachable h.reachable
  refine ⟨?_, fun root hr => ?_, ?_⟩
  · have h₁ := (hsound.valid s).drain
    have h₂ := (hsound.valid s).once
    have h₃ : (life s m).drained = m.shared.history.drained.count s := rfl
    split_ifs at h₁ <;> omega
  · exact recorded_le_covered.trans ((covering_of_reachable h.reachable).bounded s root hr)
  · have h₁ := (ordered_of_reach h).count s
    have h₂ := hsound.row_once s
    have h₃ := storing_le (s := s) (F := m.frames)
    omega

/-- In an idle daemon every accepted scan is drained and has its sentinel in the queue, and a scan
that was not canceled has recorded every node. -/
theorem recorded_of_idle (h : (daemon cfg tree maxScanId).Reach Undisturbed m)
    (hn : 0 < cfg.scanPoolNumThreads) (hq : 0 < cfg.queSize)
    (hidle : Idle (daemon cfg tree maxScanId) m) (ha : s ∈ m.shared.history.accepted) :
    m.shared.history.drained.count s = 1 ∧ (m.shared.manager.context s).unfinishedJobs = 0 ∧
      m.shared.exportManager.announcedEnds s = 1 ∧
      ((m.shared.manager.context s).canceled = false →
        ∀ root, (s, root) ∈ m.shared.history.submitted →
          m.shared.exportManager.recorded s = (rootJob tree ⟨s, root⟩).events) := by
  have hsound := sound_of_reachable h.reachable
  obtain ⟨hd, hu, hrow⟩ := drained_of_idle h hn hq hidle ha
  refine ⟨hd, hu, ((ordered_of_reach h).count s).trans hrow, fun hc root hr => ?_⟩
  rw [← covered_of_drained hsound (by omega)]
  exact (exhaustive_of_reach h s root hr ha).resolve_left (by simp [hc])

end ScanDaemon
