import ScanDaemon.Lifecycle.Submitted

/-! # The slots reserved for root jobs

`task_on_job_submit` counts the free slots of the scan queue before it submits
a child, and the child is pushed later, in a critical section of its own. The
reserve is kept as long as no other worker pushes a child in between.
-/

namespace ScanDaemon

open Interleave

variable {cfg : Config} {tree : ScanId → FsNode} {σ σ' : Shared cfg} {x : Input} {f : Frame}
  {fs : List Frame} {maxScanId : ScanId} {m m' : DaemonState cfg} {a : Thread cfg × Input}
  {sub sub' : List (ScanId × Path)} {data c : ScanData}

/-! ## Root jobs and child jobs -/

/-- A job for a root that was submitted. -/
def ScanData.IsRoot (data : ScanData) (sub : List (ScanId × Path)) : Prop :=
  (data.scanId, data.path) ∈ sub

instance : Decidable (data.IsRoot sub) := inferInstanceAs (Decidable (_ ∈ sub))

/-- The root of the scan of a job is at least the given number of characters shorter than its
path. -/
def ScanData.Below (k : ℕ) (sub : List (ScanId × Path)) (data : ScanData) : Prop :=
  ∃ root, (data.scanId, root) ∈ sub ∧ root.length + k ≤ data.path.length

theorem ScanData.Below.mono {k : ℕ} (h : data.Below k sub) (hsub : sub ⊆ sub') :
    data.Below k sub' := by
  obtain ⟨root, hr, hl⟩ := h
  exact ⟨root, hsub hr, hl⟩

/-- The path of a child is longer than that of its parent. -/
theorem ScanData.Below.child (h : data.Below 0 sub) (hc : c ∈ data.children) :
    c.Below 1 sub := by
  obtain ⟨root, hr, hl⟩ := h
  refine ⟨root, (ScanData.scanId_of_mem_children hc).symm ▸ hr, ?_⟩
  unfold ScanData.children at hc
  cases hn : data.node <;> simp [hn] at hc
  obtain ⟨name, node, -, rfl⟩ := hc
  simp only [ScanData.child, List.length_append, List.length_cons]
  omega

/-- Whether a job is a root job or below the root of its scan is a matter of its path. -/
theorem ScanData.Below.not_isRoot (h : data.Below 1 sub)
    (hu : ∀ id root root', (id, root) ∈ sub → (id, root') ∈ sub → root = root') :
    ¬data.IsRoot sub := by
  obtain ⟨root, hr, hl⟩ := h
  intro hroot
  have he := hu _ _ _ hr hroot
  subst he
  omega

/-- The children that a job has in hand. -/
def JobPc.inHand : JobPc → List ScanData
  | .entry | .scan => []
  | .loop rest => rest
  | .submit child rest | .slots child rest | .push child rest => child :: rest

/-- The job of a frame lies at or below the root of its scan, and its children below it. -/
def Frame.Placed (sub : List (ScanId × Path)) : Frame → Prop
  | .workerJob data pc => data.Below 0 sub ∧ ∀ child ∈ pc.inHand, child.Below 1 sub
  | _ => True

theorem Frame.Placed.mono (h : f.Placed sub) (hsub : sub ⊆ sub') : f.Placed sub' := by
  cases f with
  | workerJob data pc => exact ⟨h.1.mono hsub, fun child hc => (h.2 child hc).mono hsub⟩
  | _ => trivial

/-- All jobs lie at or below the roots of their scans. -/
structure Placed (m : DaemonState cfg) : Prop where
  frames : ∀ f ∈ m.frames, f.Placed m.shared.history.submitted
  queue : ∀ data ∈ m.shared.manager.scanPool.jobQueue.container,
    data.Below 0 m.shared.history.submitted

theorem ScanData.Below.of_child (h : data.Below 1 sub) : data.Below 0 sub := by
  obtain ⟨root, hr, hl⟩ := h
  exact ⟨root, hr, (Nat.le_succ _).trans hl⟩

theorem JobStep.placed {pc : JobPc} (hs : JobStep σ data pc σ' fs)
    (hf : (Frame.workerJob data pc).Placed sub) : ∀ g ∈ fs, g.Placed sub := by
  obtain ⟨hd, hc⟩ := hf
  cases hs with
  | scan | scan_dropped =>
    simpa [Frame.Placed, JobPc.inHand] using ⟨hd, fun c hc => hd.child hc⟩
  | @slots_taken child | @full child =>
    have hchild := (hc child List.mem_cons_self).of_child
    simp_all [Frame.Placed, JobPc.inHand]
  | _ => simp_all [Frame.Placed, JobPc.inHand]

/-- A job is queued as the root job of a dispatch or by the worker that has it in hand. -/
theorem Step.queued_from (hs : Step tree σ x f σ' fs)
    (hd : data ∈ σ'.manager.scanPool.jobQueue.container) :
    data ∈ σ.manager.scanPool.jobQueue.container ∨
      (∃ root, f = .run (.push root) ∧ data = rootJob tree root) ∨
      ∃ job rest, f = .workerJob job (.push data rest) := by
  cases hs with
  | run hs =>
    cases hs with
    | @accept root =>
      rcases List.mem_append.mp hd with hd | hd
      · exact .inl hd
      · exact .inr (.inl ⟨root, rfl, List.mem_singleton.mp hd⟩)
    | _ => exact .inl hd
  | workForever hs =>
    cases hs with
    | exit => exact .inl hd
    | take hc => exact .inl (hc ▸ List.mem_append_left _ hd)
  | @workerJob job pc _ _ hs =>
    cases hs with
    | @pushed child rest =>
      rcases List.mem_append.mp hd with hd | hd
      · exact .inl hd
      · rw [List.mem_singleton.mp hd]
        exact .inr (.inr ⟨job, rest, rfl⟩)
    | _ => exact .inl hd
  | http hs | finish hs | result hs | main hs => cases hs <;> exact .inl hd
  | cancelScan => exact .inl (by simpa using hd)

theorem Step.placed (hs : Step tree σ x f σ' fs) (hf : f.Placed sub)
    (hq : ∀ data ∈ σ.manager.scanPool.jobQueue.container, data.Below 0 sub) :
    ∀ g ∈ fs, g.Placed sub := by
  cases hs with
  | workerJob hs => exact hs.placed hf
  | workForever hs =>
    cases hs with
    | exit => simp
    | @take data rest hc =>
      have hd := hq data (hc ▸ by simp)
      simpa [Frame.Placed, JobPc.inHand] using hd
  | http hs | run hs | finish hs | result hs | main hs => cases hs <;> simp [Frame.Placed]
  | cancelScan => simp

theorem Placed.step (hsub : Submitted m) (h : Placed m)
    (hs : (daemon cfg tree maxScanId).step m a = some m') : Placed m' := by
  obtain ⟨f, rest, fs, R, -, hst, -, hF, hF'⟩ := daemon_step hs
  have hmono := hst.submitted_subset
  have hfr := h.frames
  have hnm := hsub.frames
  rw [hF] at hfr hnm
  have hf := hfr f (Multiset.mem_cons_self _ _)
  refine ⟨fun g hg => ?_, fun data hd => ?_⟩
  · rw [hF', Multiset.mem_add] at hg
    rcases hg with hg | hg
    · exact (hst.placed hf h.queue g hg).mono hmono
    · exact (hfr g (Multiset.mem_cons_of_mem hg)).mono hmono
  · rcases hst.queued_from hd with hd | ⟨root, rfl, rfl⟩ | ⟨job, rest, rfl⟩
    · exact (h.queue data hd).mono hmono
    · have hroot := hnm _ (Multiset.mem_cons_self _ _) root rfl
      exact ⟨root.root, hmono hroot, le_rfl⟩
    · exact (hf.2 data List.mem_cons_self).of_child.mono hmono

theorem placed_of_reachable (h : (daemon cfg tree maxScanId).Reachable m) : Placed m := by
  refine h.invariant ⟨fun f hf => ?_, ?_⟩ fun n a n' hn _ hs hp =>
    hp.step (submitted_of_reachable hn) hs
  · obtain ⟨i, hi⟩ := Machine.mem_frames.mp hf
    cases i <;> simp [daemon, initialStack] at hi <;> subst hi <;> trivial
  · simp [daemon, Shared.new, Manager.new, JobQueue.new]

/-- What a worker pushes is not a root job. -/
theorem child_not_isRoot (h : (daemon cfg tree maxScanId).Reachable m) {rest : List ScanData}
    (hf : .workerJob data (.push c rest) ∈ m.frames) :
    ¬c.IsRoot m.shared.history.submitted :=
  (((placed_of_reachable h).frames _ hf).2 c List.mem_cons_self).not_isRoot
    (submitted_of_reachable h).unique

/-! ## The reserve -/

/-- The root jobs in the scan queue. -/
def Shared.rootJobs (σ : Shared cfg) : ℕ :=
  σ.manager.scanPool.jobQueue.container.countP fun data => data.IsRoot σ.history.submitted

/-- The other jobs in the scan queue. -/
def Shared.childJobs (σ : Shared cfg) : ℕ :=
  σ.manager.scanPool.jobQueue.container.countP fun data => ¬data.IsRoot σ.history.submitted

theorem Shared.rootJobs_add_childJobs :
    σ.rootJobs + σ.childJobs = σ.manager.scanPool.jobQueue.container.length := by
  rw [List.length_eq_countP_add_countP fun data => data.IsRoot σ.history.submitted]
  simp [rootJobs, childJobs]

/-- The child that a worker is about to push. -/
def Frame.pushing : Frame → Option ScanData
  | .workerJob _ (.push child _) => some child
  | _ => none

/-- No other child job is pushed between the test of the free slots for a child and its own
push. -/
def PushesInTurn (m : DaemonState cfg) (a : Thread cfg × Input) : Prop :=
  ∀ f ∈ m.top a.1, f.pushing ≠ none →
    m.shared.manager.scanPool.jobQueue.stopFlag = false →
    m.shared.manager.scanPool.jobQueue.jobsInQueue < cfg.scanQueueMaxSize →
    ∀ i, i ≠ a.1 → ∀ g ∈ m.top i, g.pushing = none

instance (m : DaemonState cfg) (a : Thread cfg × Input) : Decidable (PushesInTurn m a) :=
  inferInstanceAs (Decidable (∀ f ∈ m.top a.1, _ → _ → _ → ∀ i, i ≠ a.1 → ∀ g ∈ m.top i, _))

/-- Fewer queued jobs and more submitted roots make fewer child jobs. -/
theorem Shared.childJobs_le
    (hq : σ'.manager.scanPool.jobQueue.container.Sublist σ.manager.scanPool.jobQueue.container)
    (hsub : σ.history.submitted ⊆ σ'.history.submitted) : σ'.childJobs ≤ σ.childJobs :=
  calc σ'.childJobs
      ≤ σ.manager.scanPool.jobQueue.container.countP fun data =>
          ¬data.IsRoot σ'.history.submitted := hq.countP_le
    _ ≤ σ.childJobs := by
      apply List.countP_mono_left
      intro data _ hd
      have hnot : ¬data.IsRoot σ'.history.submitted := by simpa using hd
      simpa using fun hroot : data.IsRoot σ.history.submitted => hnot (hsub hroot)

/-- A job at the end of the scan queue is a child job more, unless it is a root job. -/
theorem Shared.childJobs_pushBack {queue : JobQueue .lifo cfg.scanQueueMaxSize ScanData}
    (hqueue : queue = σ.manager.scanPool.jobQueue) :
    (σ.withManager (σ.manager.withQueue (queue.pushBack data))).childJobs =
      σ.childJobs + if data.IsRoot σ.history.submitted then 0 else 1 := by
  subst hqueue
  have happ : (σ.withManager (σ.manager.withQueue
      (σ.manager.scanPool.jobQueue.pushBack data))).childJobs =
      (σ.manager.scanPool.jobQueue.container ++ [data]).countP
        fun data => ¬data.IsRoot σ.history.submitted := rfl
  rw [happ, List.countP_append]
  simp [Shared.childJobs, List.countP_singleton, ite_not]

/-- The child jobs in the queue become more only when a worker pushes one. -/
theorem Step.childJobs_cases (hs : Step tree σ x f σ' fs)
    (hroot : ∀ data, f = .run (.push data) → (rootJob tree data).IsRoot σ.history.submitted)
    (hchild : ∀ c ∈ f.pushing, ¬c.IsRoot σ.history.submitted) :
    σ'.childJobs ≤ σ.childJobs ∨
      f.pushing ≠ none ∧ σ.manager.scanPool.jobQueue.stopFlag = false ∧
        σ.manager.scanPool.jobQueue.jobsInQueue < cfg.scanQueueMaxSize ∧
        σ'.childJobs = σ.childJobs + 1 ∧ ∀ g ∈ fs, g.pushing = none := by
  have hsub := hs.submitted_subset
  cases hs with
  | run hs =>
    cases hs with
    | @accept data _ _ =>
      have hone : _ = σ.childJobs +
          if (rootJob tree data).IsRoot σ.history.submitted then 0 else 1 :=
        Shared.childJobs_pushBack rfl
      rw [if_pos (hroot data rfl)] at hone
      exact .inl hone.le
    | _ => exact .inl (Shared.childJobs_le (List.Sublist.refl _) hsub)
  | workForever hs =>
    cases hs with
    | exit => exact .inl (Shared.childJobs_le (List.Sublist.refl _) hsub)
    | take hc => exact .inl (Shared.childJobs_le (hc ▸ List.sublist_append_left _ _) hsub)
  | workerJob hs =>
    cases hs with
    | @pushed child rest hstop hroom =>
      refine .inr ⟨by simp [Frame.pushing], hstop, hroom, ?_, by simp [Frame.pushing]⟩
      rw [Shared.childJobs_pushBack rfl, if_neg (hchild child rfl)]
    | _ => exact .inl (Shared.childJobs_le (List.Sublist.refl _) hsub)
  | cancelScan => exact .inl (Shared.childJobs_le (by simp) hsub)
  | http hs | finish hs | result hs | main hs =>
    cases hs <;> exact .inl (Shared.childJobs_le (List.Sublist.refl _) hsub)

/-- A child that has passed the test of the free slots leaves room for itself beside the reserve. -/
theorem childJobs_lt_of_enough (h : σ.manager.enough = true) :
    σ.childJobs < cfg.scanQueueMaxSize - Manager.reserved cfg := by
  have hadd := σ.rootJobs_add_childJobs
  have hfree : Manager.reserved cfg <
      if σ.manager.scanPool.jobQueue.container.length < cfg.scanQueueMaxSize then
        cfg.scanQueueMaxSize - σ.manager.scanPool.jobQueue.container.length else 0 :=
    of_decide_eq_true h
  split_ifs at hfree <;> omega

/-- A frame comes to push a child only on top of the stack, when it has passed the test. -/
theorem Step.pushing_cases (hs : Step tree σ x f σ' fs) :
    (∀ g ∈ fs, g.pushing = none) ∨
      σ' = σ ∧ σ.manager.enough = true ∧ ∃ g, fs = [g] := by
  cases hs with
  | workerJob hs =>
    cases hs with
    | slots_free hfree => exact .inr ⟨rfl, hfree, _, rfl⟩
    | _ => exact .inl (by simp [Frame.pushing])
  | cancelScan => exact .inl (by simp)
  | http hs | run hs | workForever hs | finish hs | result hs | main hs =>
    cases hs <;> exact .inl (by simp [Frame.pushing])

/-- The child jobs keep to their slots, and a worker that has passed the test has one for the child
that it is going to push. -/
structure ReserveKept (m : DaemonState cfg) : Prop where
  children : m.shared.childJobs ≤ cfg.scanQueueMaxSize - Manager.reserved cfg
  tested : ∀ i, ∀ f ∈ m.top i, f.pushing ≠ none →
    m.shared.childJobs < cfg.scanQueueMaxSize - Manager.reserved cfg
  under : ∀ i, ∀ f ∈ (m.stack i).tail, f.pushing = none

theorem ReserveKept.step (hr : (daemon cfg tree maxScanId).Reachable m) (h : ReserveKept m)
    (hok : PushesInTurn m a) (hs : (daemon cfg tree maxScanId).step m a = some m') :
    ReserveKept m' := by
  obtain ⟨f, rest, fs, R, hf, hst, hm', hF, -⟩ := daemon_step hs
  have hmem : f ∈ m.frames := hF ▸ Multiset.mem_cons_self _ _
  have htop := Machine.top_of_stack hf
  have hrest : ∀ g ∈ rest, g.pushing = none := by
    have hunder := h.under a.1
    rwa [hf] at hunder
  have hroot : ∀ data, f = .run (.push data) →
      (rootJob tree data).IsRoot m.shared.history.submitted := by
    rintro data rfl
    exact (submitted_of_reachable hr).frames _ hmem data rfl
  have hchild : ∀ c ∈ f.pushing, ¬c.IsRoot m.shared.history.submitted := by
    intro c hc
    cases f with
    | workerJob data pc =>
      cases pc <;> simp [Frame.pushing] at hc
      subst hc
      exact child_not_isRoot hr hmem
    | _ => cases hc
  have hself : m'.stack a.1 = fs ++ rest := by rw [hm', Function.update_self]
  have hother : ∀ i, i ≠ a.1 → m'.stack i = m.stack i := by
    intro i hi
    rw [hm', Function.update_of_ne hi]
  refine ⟨?_, ?_, ?_⟩
  · rcases hst.childJobs_cases hroot hchild with hle | ⟨hpush, -, -, hone, -⟩
    · exact hle.trans h.children
    · rw [hone]
      exact h.tested a.1 f htop hpush
  · intro i g hg hpush
    rcases hst.childJobs_cases hroot hchild with hle | ⟨hpushed, hstop, hroom, -, hnone⟩
    · by_cases hi : i = a.1
      · subst hi
        rcases hst.pushing_cases with hnone | ⟨he, hfree, -⟩
        · refine absurd ?_ hpush
          have hg' : g ∈ fs ++ rest := by
            rw [← hself]
            exact List.mem_of_mem_head? hg
          exact (List.mem_append.mp hg').elim (hnone g) (hrest g)
        · rw [he]
          exact childJobs_lt_of_enough hfree
      · rw [Machine.top, hother i hi] at hg
        exact hle.trans_lt (h.tested i g hg hpush)
    · refine absurd ?_ hpush
      by_cases hi : i = a.1
      · subst hi
        have hg' : g ∈ fs ++ rest := by
          rw [← hself]
          exact List.mem_of_mem_head? hg
        exact (List.mem_append.mp hg').elim (hnone g) (hrest g)
      · rw [Machine.top, hother i hi] at hg
        exact hok f htop hpushed hstop hroom i hi g hg
  · intro i g hg
    by_cases hi : i = a.1
    · subst hi
      rw [hself] at hg
      rcases hst.pushing_cases with hnone | ⟨-, -, top, rfl⟩
      · exact (List.mem_append.mp (List.mem_of_mem_tail hg)).elim (hnone g) (hrest g)
      · exact hrest g hg
    · rw [hother i hi] at hg
      exact h.under i g hg

/-- In the runs in which no other child is pushed between the test of the free slots for a child and
its push, the child jobs in the scan queue never take a reserved slot. -/
theorem reserve_kept (h : (daemon cfg tree maxScanId).Reach PushesInTurn m) :
    m.shared.childJobs ≤ cfg.scanQueueMaxSize - Manager.reserved cfg := by
  have hkept : ReserveKept m := by
    refine h.invariant ⟨Nat.zero_le _, ?_, ?_⟩ fun m a m' hr hok hs ih =>
      ih.step hr.reachable hok hs
    · intro i f hf
      cases i <;> simp [Machine.top, daemon, initialStack] at hf <;> subst hf <;>
        simp [Frame.pushing]
    · intro i
      cases i <;> simp [daemon, initialStack]
  exact hkept.children

/-! ## Two workers with a child each -/

/-- Two scans of a directory with a file are queued. -/
def twoQueued : List (Thread (smallConfig 2 2 2) × Input) :=
  serve (.submit ['/', 'a']) 2 ++ serve (.submit ['/', 'b']) 2 ++ steps 10 .run

/-- The first worker pushes its child into the one slot that children may take, and the second one
finds no slot for its own. -/
theorem reserve_kept_one :
    let m := (daemon (smallConfig 2 2 2) (fun _ => smallTree) 0).run
      (twoQueued ++ steps 1 (.worker ⟨1, by decide⟩) ++ steps 7 (.worker ⟨0, by decide⟩) ++
        steps 5 (.worker ⟨1, by decide⟩))
    m.shared.childJobs = 1 ∧ m.shared.manager.enough = false ∧
      m.shared.childJobs ≤ (smallConfig 2 2 2).scanQueueMaxSize -
        Manager.reserved (smallConfig 2 2 2) :=
  ⟨by decide +kernel, by decide +kernel, reserve_kept (System.reach_run (by decide +kernel))⟩

/-- Both workers pass the test and then push, and the two child jobs fill the queue with the slot
that is reserved. -/
theorem reserve_taken :
    ∃ m, (daemon (smallConfig 2 2 2) (fun _ => smallTree) 0).Reachable m ∧
      Manager.reserved (smallConfig 2 2 2) = 1 ∧ (smallConfig 2 2 2).scanQueueMaxSize = 2 ∧
      m.shared.childJobs = 2 ∧ m.shared.rootJobs = 0 :=
  ⟨_, System.reachable_run _ (twoQueued ++ steps 5 (.worker ⟨0, by decide⟩) ++
    steps 6 (.worker ⟨1, by decide⟩) ++ steps 2 (.worker ⟨0, by decide⟩) ++
    steps 1 (.worker ⟨1, by decide⟩)), by decide, by decide, by decide +kernel, by decide +kernel⟩

end ScanDaemon
