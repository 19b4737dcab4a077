import ScanDaemon.Traversal.Coverage

/-! # The traversal ends

Every step of a worker and of the result thread lowers the work that is left:
the nodes that the jobs still visit, the stages of `task_on_job_finish` that
are open, and the events that wait for the result thread. Only the acceptance
of a scan adds to it, by the size of the tree.
-/

namespace ScanDaemon

open Interleave

variable {cfg : Config} {tree : ScanId → FsNode} {σ σ' : Shared cfg} {x : Input} {f : Frame}
  {fs : List Frame} {F R : Multiset Frame} {maxScanId : ScanId} {m m' : DaemonState cfg}
  {a : Thread cfg × Input} {s : ScanId}

/-- Bounds the steps that a frame still leads to. -/
@[simp] def workWeight : Frame → ℕ
  | .workerJob data pc => match pc with
    | .entry => 30 * data.node.size - 6
    | .scan => 30 * data.node.size - 7
    | .loop rest => 30 * totalSize rest + 15
    | .submit child rest => 30 * child.node.size + 30 * totalSize rest + 14
    | .slots child rest => 30 * child.node.size + 30 * totalSize rest + 13
    | .push child rest => 30 * child.node.size + 30 * totalSize rest + 12
  | .finish _ pc => match pc with
    | .decrement => 14
    | .notifyFinished _ => 13
    | .readCanceled _ => 12
    | .takeTask _ _ => 11
    | .pushSentinel _ _ => 10
    | .insertRow _ => 4
    | .exchange => 3
    | .notifyDispatch => 2
    | .gauge => 1
  | .result pc => match pc with
    | .pop => 0
    | .getRow _ => 3
    | .insertExported _ _ => 2
    | .notifyExport _ => 1
  | _ => 0

/-- Bounds the steps that the queued jobs still lead to. -/
def queueWork (jobs : List ScanData) : ℕ := (jobs.map fun data => 30 * data.node.size - 5).sum

@[simp] theorem queueWork_append {jobs : List ScanData} {data : ScanData} :
    queueWork (jobs ++ [data]) = queueWork jobs + (30 * data.node.size - 5) := by
  simp [queueWork]

/-- The work that is left in a memory with given frames. -/
def work (σ : Shared cfg) (F : Multiset Frame) : ℕ :=
  weigh workWeight F + queueWork σ.manager.scanPool.jobQueue.container +
    5 * σ.exportManager.resultQueue.container.length

theorem JobStep.work_lt {data : ScanData} {pc : JobPc} (hs : JobStep σ data pc σ' fs) :
    work σ' ((fs : Multiset Frame) + R) < work σ (.workerJob data pc ::ₘ R) := by
  have hsize := data.size_eq
  cases hs with
  | slots_taken | full | pushed | shutdown =>
    have hc := FsNode.size_pos (ScanData.node ‹_›)
    simp [work]
    omega
  | loop_end | loop_break | submit | slots_free => simp [work]
  | scan | scan_dropped | enter | canceled | loop_next => simp [work]; omega

theorem FinishStep.work_lt {id : ScanId} {pc : FinishPc} (hs : FinishStep σ x id pc σ' fs) :
    work σ' ((fs : Multiset Frame) + R) < work σ (.finish id pc ::ₘ R) := by
  cases hs with
  | push_sentinel => simp [work]; omega
  | _ => simp [work]

theorem WorkerStep.work_lt (hs : WorkerStep σ σ' fs)
    (hstop : σ.manager.scanPool.jobQueue.stopFlag = false) :
    work σ' ((fs : Multiset Frame) + R) < work σ (.workForever ::ₘ R) := by
  cases hs with
  | exit _ h => simp [hstop] at h
  | @take data rest hc =>
    have hd := data.node.size_pos
    simp [work, hc]
    omega

/-- The frame stops the pool, or ends the result thread for want of a row. -/
def Frame.Disturbs (em : ExportManager cfg) : Frame → Prop
  | .main .stopPool => True
  | .result (.getRow ev) => em.pendingScanRows.lookup ev.scanId = none
  | _ => False

instance (em : ExportManager cfg) : (f : Frame) → Decidable (f.Disturbs em)
  | .main .stopPool => .isTrue trivial
  | .result (.getRow ev) => inferInstanceAs (Decidable (em.pendingScanRows.lookup ev.scanId = none))
  | .main .shutdown | .main (.cancelLoop _ _) | .main (.waitLoop _) | .main .joinPool
  | .main .stopExport | .main .joinExport | .result .pop | .result (.insertExported _ _)
  | .result (.notifyExport _) | .http _ | .cancelScan _ | .run _ | .workForever
  | .workerJob _ _ | .finish _ _ => .isFalse id

theorem ResultStep.work_lt {pc : ResultPc} (hs : ResultStep σ pc σ' fs)
    (hf : ¬(Frame.result pc).Disturbs σ.exportManager)
    (hstop : σ.exportManager.resultQueue.stopFlag = false) :
    work σ' ((fs : Multiset Frame) + R) < work σ (.result pc ::ₘ R) := by
  cases hs with
  | exit _ h => simp [hstop] at h
  | row_missing h => exact absurd h hf
  | event hc => simp [work, hc]
  | sentinel hc => simp [work, hc]; omega
  | _ => simp [work]

/-- The work that the accepted scans have brought in. -/
def brought (tree : ScanId → FsNode) (accepted : List ScanId) : ℕ :=
  (accepted.map fun s => 30 * (tree s).size).sum

/-- The threads whose steps make up the traversal. -/
def Thread.Traverses : Thread cfg → Prop
  | .worker _ | .result => True
  | _ => False

instance : DecidablePred (@Thread.Traverses cfg)
  | .worker _ | .result => .isTrue trivial
  | .http _ | .run | .main => .isFalse id

/-- The steps that count as steps of the traversal. -/
def Frame.cost : Frame → ℕ
  | .workForever | .workerJob _ _ | .finish _ _ | .result _ => 1
  | .http _ | .cancelScan _ | .run _ | .main _ => 0

theorem Step.work_le (hs : Step tree σ x f σ' fs) (hf : ¬f.Disturbs σ.exportManager)
    (hpool : σ.manager.scanPool.jobQueue.stopFlag = false)
    (hres : σ.exportManager.resultQueue.stopFlag = false) :
    f.cost + work σ' ((fs : Multiset Frame) + R) + brought tree σ.history.accepted ≤
      work σ (f ::ₘ R) + brought tree σ'.history.accepted := by
  have hacc : (∀ data, f ≠ .run (.push data)) → σ'.history.accepted = σ.history.accepted :=
    fun hne => hs.accepted_eq.resolve_right fun ⟨data, he, _⟩ => hne data he
  cases hs with
  | workForever hs =>
    have h := hs.work_lt (R := R) hpool
    rw [hacc (by simp)]
    simp only [Frame.cost]
    omega
  | workerJob hs =>
    have h := hs.work_lt (R := R)
    rw [hacc (by simp)]
    simp only [Frame.cost]
    omega
  | finish hs =>
    have h := hs.work_lt (R := R)
    rw [hacc (by simp)]
    simp only [Frame.cost]
    omega
  | result hs =>
    have h := hs.work_lt (R := R) hf hres
    rw [hacc (by simp)]
    simp only [Frame.cost]
    omega
  | run hs =>
    cases hs with
    | @accept data =>
      simp [work, Frame.cost, brought, rootJob]
      omega
    | refuse_shutdown hp => simp [hpool] at hp
    | _ => simp [work, Frame.cost]
  | cancelScan => simp [work, Frame.cost]
  | http hs => cases hs <;> simp [work, Frame.cost]
  | main hs => cases hs <;> simp [work, Frame.cost]

/-- The step neither stops the pool nor ends the result thread for want of a row. -/
def Undisturbed (m : DaemonState cfg) (a : Thread cfg × Input) : Prop :=
  ∀ f ∈ m.top a.1, ¬f.Disturbs m.shared.exportManager

instance (m : DaemonState cfg) (a : Thread cfg × Input) : Decidable (Undisturbed m a) :=
  inferInstanceAs (Decidable (∀ f ∈ m.top a.1, _))

/-- What stays true as long as the daemon is not disturbed. -/
structure Busy (m : DaemonState cfg) : Prop where
  rank : mainRank (m.stack .main) ≤ 3
  rejected : m.shared.history.rejected = []
  run : ∀ id pc, .finish id pc ∉ m.stack .run
  workers : ∀ i, m.stack (.worker i) ≠ []
  result : m.stack .result ≠ []

theorem Busy.stack_ne_nil {i : Thread cfg} (h : Busy m) (hi : i.Traverses) : m.stack i ≠ [] := by
  cases i with
  | worker j => exact h.workers j
  | result => exact h.result
  | http _ | run | main => exact hi.elim

theorem Busy.pool_open (h : Busy m) (hs : Sound m) :
    m.shared.manager.scanPool.jobQueue.stopFlag = false := by
  by_contra hp
  have h₁ := hs.flags.pool.mp (by simpa using hp)
  have h₂ := h.rank
  omega

theorem Busy.results_open (h : Busy m) (hs : Sound m) :
    m.shared.exportManager.resultQueue.stopFlag = false := by
  by_contra hp
  have h₁ := hs.flags.results.mp (by simpa using hp)
  have h₂ := h.rank
  omega

theorem Busy.step (hb : Busy m) (h : (daemon cfg tree maxScanId).Reachable m)
    (hok : Undisturbed m a) (hs : (daemon cfg tree maxScanId).step m a = some m') : Busy m' := by
  have hsound := sound_of_reachable h
  have hpool := hb.pool_open hsound
  have hres := hb.results_open hsound
  obtain ⟨f, rest, fs, R, hf, hst, hm', -, -⟩ := daemon_step hs
  have hsh := hsound.shape a.1
  have hdis := hok f (Machine.top_of_stack hf)
  rw [hf] at hsh
  have hother : ∀ {i : Thread cfg}, i ≠ a.1 → m'.stack i = m.stack i := fun hi => by
    rw [hm', Function.update_of_ne hi]
  have hself : m'.stack a.1 = fs ++ rest := by rw [hm', Function.update_self]
  refine ⟨?_, ?_, fun id pc hmem => ?_, fun i hnil => ?_, fun hnil => ?_⟩
  · by_cases hi : a.1 = .main
    · rw [hi] at hf hsh hself
      have hrank := hb.rank
      rw [hf] at hrank
      rw [hself]
      generalize m'.shared = τ at hst
      cases hsh with
      | canceling id todo all => cases hst; exact hrank
      | running pc =>
        cases hst with
        | main hst =>
          cases hst with
          | stop_pool => exact absurd trivial hdis
          | _ => simp [MainPc.rank] at hrank ⊢
    · rw [hother (Ne.symm hi)]
      exact hb.rank
  · rcases hst.rejected_eq with he | ⟨data, -, hp, -⟩
    · rw [he, hb.rejected]
    · simp [hpool] at hp
  · by_cases hi : a.1 = .run
    · rw [hi] at hf hsh hself
      rw [hself] at hmem
      have hrun := hb.run
      rw [hf] at hrun
      generalize m'.shared = τ at hst
      cases hsh with
      | refused data pc => exact hrun _ _ List.mem_cons_self
      | canceling id => cases hst; simp at hmem
      | running pc =>
        cases hst with
        | run hst =>
          cases hst with
          | refuse_shutdown hp => simp [hpool] at hp
          | _ => simp at hmem
    · rw [hother (Ne.symm hi)] at hmem
      exact hb.run id pc hmem
  · by_cases hi : a.1 = .worker i
    · rw [← hi, hself, List.append_eq_nil_iff] at hnil
      obtain ⟨rfl, rfl⟩ := hnil
      rw [hi] at hsh
      generalize m'.shared = τ at hst
      generalize hl : [f] = l at hsh
      cases hsh with
      | exited => cases hl
      | @working jobs hj =>
        cases jobs with
        | nil =>
          cases hl
          cases hst with
          | workForever hst => cases hst with
            | exit _ hp => simp [hpool] at hp
        | cons g jobs => simp at hl
    · rw [hother (Ne.symm hi)] at hnil
      exact hb.workers i hnil
  · by_cases hi : a.1 = .result
    · rw [← hi, hself, List.append_eq_nil_iff] at hnil
      obtain ⟨rfl, rfl⟩ := hnil
      rw [hi] at hsh
      generalize m'.shared = τ at hst
      cases hsh with
      | running pc =>
        cases hst with
        | result hst =>
          cases hst with
          | exit _ hr => simp [hres] at hr
          | row_missing hr => exact hdis hr
    · rw [hother (Ne.symm hi)] at hnil
      exact hb.result hnil

theorem busy_of_reach (h : (daemon cfg tree maxScanId).Reach Undisturbed m) : Busy m := by
  refine h.invariant ⟨?_, rfl, ?_, ?_, ?_⟩ fun n a n' hn hok hs hb =>
    hb.step hn.reachable hok hs
  all_goals simp [daemon, initialStack, MainPc.rank]

end ScanDaemon
