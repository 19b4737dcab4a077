import ScanDaemon.Runtime.Steps

/-! # The call stacks

Which frames a thread can hold, and how the number of pool threads, the stop
flags and the stack of the main thread depend on each other.
-/

namespace ScanDaemon

open Interleave

variable {cfg : Config} {tree : ScanId → FsNode} {σ σ' : Shared cfg} {x : Input} {f : Frame}
  {fs rest : List Frame}

/-- The jobs that a worker still has to run or to hand on from a program point of `worker_job`. -/
def JobPc.todo (data : ScanData) : JobPc → List ScanData
  | .entry | .scan => [data]
  | .loop rest => rest
  | .submit child rest | .slots child rest | .push child rest => child :: rest

/-- A frame of a job: all it has to do belongs to one scan. -/
def Frame.IsJob : Frame → Prop
  | .workerJob data pc => ∀ c ∈ pc.todo data, c.scanId = data.scanId
  | .finish _ _ => True
  | _ => False

/-- A frame of an HTTP worker. -/
def Frame.IsHttp : Frame → Prop
  | .http _ | .cancelScan _ => True
  | _ => False

inductive RunShape : List Frame → Prop where

  | exited : RunShape []

  | running (pc : RunPc) : RunShape [.run pc]

  /-- `task_on_job_finish` for a root job that the pool has refused -/
  | refused (data : PendingRoot) (pc : FinishPc) :
      RunShape [.finish data.scanId pc, .run (.commit data false false)]

  | canceling (id : ScanId) : RunShape [.cancelScan id, .run .head]

inductive WorkerShape : List Frame → Prop where

  | exited : WorkerShape []

  | working {l : List Frame} : (∀ f ∈ l, f.IsJob) → WorkerShape (l ++ [.workForever])

inductive ResultShape : List Frame → Prop where

  | exited : ResultShape []

  | running (pc : ResultPc) : ResultShape [.result pc]

inductive MainShape : List Frame → Prop where

  | exited : MainShape []

  | running (pc : MainPc) : MainShape [.main pc]

  | canceling (id : ScanId) (todo all : List ScanId) :
      MainShape [.cancelScan id, .main (.cancelLoop todo all)]

/-- The stacks of a thread. -/
def Shape : Thread cfg → List Frame → Prop
  | .http _ => fun st => ∀ f ∈ st, f.IsHttp
  | .run => RunShape
  | .worker _ => WorkerShape
  | .result => ResultShape
  | .main => MainShape

theorem shape_initial (i : Thread cfg) : Shape i (initialStack i) := by
  cases i with
  | http _ => simp [Shape, initialStack, Frame.IsHttp]
  | run => exact .running _
  | worker _ => exact .working (l := []) (by simp)
  | result => exact .running _
  | main => exact .running _

theorem Frame.IsHttp.step (hf : f.IsHttp) (hs : Step tree σ x f σ' fs) : ∀ g ∈ fs, g.IsHttp := by
  cases hs with
  | http hs => cases hs <;> simp [Frame.IsHttp]
  | cancelScan => simp
  | _ => exact hf.elim

theorem RunShape.step (h : RunShape (f :: rest)) (hs : Step tree σ x f σ' fs) :
    RunShape (fs ++ rest) := by
  cases h with
  | running pc =>
    cases hs with
    | run hs =>
      cases hs with
      | stop => exact .exited
      | refuse_shutdown => exact .refused _ _
      | commit_canceled => exact .canceling _
      | _ => exact .running _
  | refused data pc =>
    cases hs with
    | finish hs => cases hs with
      | gauge => exact .running _
      | _ => exact .refused _ _
  | canceling id => cases hs; exact .running _

/-- A job leaves frames of jobs behind. -/
theorem Frame.IsJob.step (hf : f.IsJob) (hs : Step tree σ x f σ' fs) : ∀ g ∈ fs, g.IsJob := by
  cases hs with
  | workerJob hs =>
    cases hs with
    | scan_dropped | scan =>
      simpa [Frame.IsJob, JobPc.todo] using fun c => ScanData.scanId_of_mem_children
    | _ => simp_all [Frame.IsJob, JobPc.todo]
  | finish hs => cases hs <;> simp [Frame.IsJob]
  | _ => exact hf.elim

theorem WorkerShape.step (h : WorkerShape (f :: rest)) (hs : Step tree σ x f σ' fs) :
    WorkerShape (fs ++ rest) := by
  generalize hst : f :: rest = st at h
  cases h with
  | exited => cases hst
  | @working jobs hj =>
    cases jobs with
    | nil =>
      obtain ⟨rfl, rfl⟩ := List.cons.inj hst
      cases hs with
      | workForever hs =>
        cases hs with
        | exit => exact .exited
        | take => exact .working (l := [_]) (by simp [Frame.IsJob, JobPc.todo])
    | cons g jobs =>
      obtain ⟨rfl, rfl⟩ := List.cons.inj hst
      obtain ⟨hg, hj⟩ := List.forall_mem_cons.mp hj
      have h := WorkerShape.working (List.forall_mem_append.mpr ⟨hg.step hs, hj⟩)
      rwa [List.append_assoc] at h

theorem ResultShape.step (h : ResultShape (f :: rest)) (hs : Step tree σ x f σ' fs) :
    ResultShape (fs ++ rest) := by
  cases h with
  | running pc =>
    cases hs with
    | result hs => cases hs with
      | exit | row_missing => exact .exited
      | _ => exact .running _

theorem MainShape.step (h : MainShape (f :: rest)) (hs : Step tree σ x f σ' fs) :
    MainShape (fs ++ rest) := by
  cases h with
  | running pc =>
    cases hs with
    | main hs => cases hs with
      | join_export => exact .exited
      | cancel_next => exact .canceling _ _ _
      | _ => exact .running _
  | canceling id todo all => cases hs; exact .running _

/-- Every thread keeps the shape of its stack. -/
theorem Shape.step {i : Thread cfg} (h : Shape i (f :: rest)) (hs : Step tree σ x f σ' fs) :
    Shape i (fs ++ rest) := by
  cases i with
  | http _ =>
    have h := List.forall_mem_cons.mp h
    exact List.forall_mem_append.mpr ⟨h.1.step hs, h.2⟩
  | run => exact RunShape.step h hs
  | worker _ => exact WorkerShape.step h hs
  | result => exact ResultShape.step h hs
  | main => exact MainShape.step h hs

theorem WorkerShape.isJob (h : WorkerShape (f :: rest)) : f.IsJob ∨ f = .workForever := by
  generalize hst : f :: rest = st at h
  cases h with
  | exited => cases hst
  | @working l hl =>
    cases l with
    | nil => cases hst; exact .inr rfl
    | cons g l => cases hst; exact .inl (hl f List.mem_cons_self)

/-- Only the main thread has frames of the shutdown. -/
theorem Shape.ne_main {i : Thread cfg} (h : Shape i (f :: rest)) (hi : i ≠ .main) (pc : MainPc) :
    f ≠ .main pc := by
  rintro rfl
  cases i with
  | http _ => exact h (.main pc) List.mem_cons_self
  | run => cases h
  | worker _ => rcases WorkerShape.isJob h with h | h <;> cases h
  | result => cases h
  | main => exact hi rfl

/-- Only the thread of `Scheduler::run` has frames of its loop. -/
theorem Shape.ne_run {i : Thread cfg} (h : Shape i (f :: rest)) (hi : i ≠ .run) (pc : RunPc) :
    f ≠ .run pc := by
  rintro rfl
  cases i with
  | http _ => exact h (.run pc) List.mem_cons_self
  | run => exact hi rfl
  | worker _ => rcases WorkerShape.isJob h with h | h <;> cases h
  | result => cases h
  | main => cases h

/-- Only a worker has frames of `worker_job`. -/
theorem Shape.worker {i : Thread cfg} {data : ScanData} {pc : JobPc}
    (h : Shape i (.workerJob data pc :: rest)) :
    (Frame.workerJob data pc).IsJob ∧ ∃ j, i = .worker j := by
  cases i with
  | http _ => exact (h (.workerJob data pc) List.mem_cons_self).elim
  | run => cases h
  | worker j => exact ⟨(WorkerShape.isJob h).resolve_right (by simp), j, rfl⟩
  | result => cases h
  | main => cases h

/-- Where the loop of `run` is, read from the stack of its thread. -/
def runPc : List Frame → Option RunPc
  | [] => none
  | .run pc :: _ => some pc
  | _ :: rest => runPc rest

/-- A step of the daemon executes the top frame of one thread. -/
theorem daemon_step {maxScanId : ScanId} {m m' : DaemonState cfg} {a : Thread cfg × Input}
    (h : (daemon cfg tree maxScanId).step m a = some m') :
    ∃ f rest fs R, m.stack a.1 = f :: rest ∧ Step tree m.shared a.2 f m'.shared fs ∧
      m'.stack = Function.update m.stack a.1 (fs ++ rest) ∧
      m.frames = f ::ₘ R ∧ m'.frames = (fs : Multiset Frame) + R := by
  obtain ⟨f, rest, fs, R, hf, he, hrest⟩ := Machine.frames_step h
  exact ⟨f, rest, fs, R, hf, step_of_exec he, hrest⟩

/-! ## The order of shutdown -/

/-- How far the main thread has come. -/
def MainPc.rank : MainPc → ℕ
  | .shutdown => 0
  | .cancelLoop _ _ => 1
  | .waitLoop _ => 2
  | .stopPool => 3
  | .joinPool => 4
  | .stopExport => 5
  | .joinExport => 6

/-- How far shutdown has come, read from the stack of the main thread. -/
def mainRank : List Frame → ℕ
  | [] => 7
  | .main pc :: _ => pc.rank
  | _ :: rest => mainRank rest

@[simp] theorem mainRank_nil : mainRank [] = 7 := rfl
@[simp] theorem mainRank_main (pc : MainPc) : mainRank (.main pc :: rest) = pc.rank := rfl
@[simp] theorem mainRank_cancelScan (id : ScanId) :
    mainRank (.cancelScan id :: rest) = mainRank rest := rfl

/-- Counts the threads of the scan pool. -/
def poolWeight : Frame → ℕ
  | .workForever => 1
  | _ => 0

/-- The flags that shutdown sets, and the number of pool threads. -/
structure Flags (rank : ℕ) (σ : Shared cfg) (F : Multiset Frame) : Prop where
  scheduler : σ.scheduler.stopFlag = true ↔ 1 ≤ rank
  pool : σ.manager.scanPool.jobQueue.stopFlag = true ↔ 4 ≤ rank
  results : σ.exportManager.resultQueue.stopFlag = true ↔ 6 ≤ rank
  live : σ.manager.scanPool.live = weigh poolWeight F
  joined : 5 ≤ rank → σ.manager.scanPool.live = 0
  /-- a pool thread leaves a stopped and empty queue behind -/
  left : σ.manager.scanPool.live < cfg.scanPoolNumThreads →
    4 ≤ rank ∧ σ.manager.scanPool.jobQueue.container = []

theorem Flags.step {rank : ℕ} {R : Multiset Frame} (h : Flags rank σ (f ::ₘ R))
    (hs : Step tree σ x f σ' fs) (hf : ∀ pc, f ≠ .main pc) :
    Flags rank σ' ((fs : Multiset Frame) + R) := by
  obtain ⟨hsc, hp, hr, hl, hj, hle⟩ := h
  simp only [weigh_cons] at hl
  cases hs with
  | http hs => cases hs <;> exact ⟨hsc, hp, hr, by simpa [weigh_coe, poolWeight] using hl, hj, hle⟩
  | cancelScan =>
    have hm : (σ.manager.cancelScan ‹_›).scanPool = σ.manager.scanPool :=
      Manager.scanPool_cancelScan
    refine ⟨hsc, ?_, hr, ?_, ?_, ?_⟩ <;> simp only [Shared.withManager_manager, hm]
    · exact hp
    · simpa [poolWeight] using hl
    · exact hj
    · exact hle
  | run hs =>
    cases hs with
    | accept hps =>
      refine ⟨hsc, hp, hr, by simpa [weigh_coe, poolWeight] using hl, hj, fun hlt => ?_⟩
      have hrank := (hle hlt).1
      simp [hp.mpr hrank] at hps
    | _ => exact ⟨hsc, hp, hr, by simpa [weigh_coe, poolWeight] using hl, hj, hle⟩
  | workForever hs =>
    cases hs with
    | exit hc hps =>
      refine ⟨hsc, by simpa [hps] using hp, hr, ?_, fun hk => by simp [hj hk], fun _ => ?_⟩
      · simp [poolWeight] at hl ⊢
        omega
      · exact ⟨hp.mp hps, hc⟩
    | take hc =>
      refine ⟨hsc, hp, hr, by simpa [weigh_coe, poolWeight] using hl, hj, fun hlt => ?_⟩
      simp [(hle hlt).2] at hc
  | workerJob hs =>
    cases hs with
    | pushed hps =>
      refine ⟨hsc, hp, hr, by simpa [weigh_coe, poolWeight] using hl, hj, fun hlt => ?_⟩
      have hrank := (hle hlt).1
      simp [hp.mpr hrank] at hps
    | _ => exact ⟨hsc, hp, hr, by simpa [weigh_coe, poolWeight] using hl, hj, hle⟩
  | finish hs =>
    cases hs with
    | notify_finished =>
      refine ⟨?_, hp, hr, by simpa [weigh_coe, poolWeight] using hl, hj, hle⟩
      simpa using hsc
    | _ => exact ⟨hsc, hp, hr, by simpa [weigh_coe, poolWeight] using hl, hj, hle⟩
  | result hs => cases hs <;> exact
    ⟨hsc, hp, hr, by simpa [weigh_coe, poolWeight] using hl, hj, hle⟩
  | main hs => exact absurd rfl (hf _)

/-- A step of the main thread moves on by at most one phase. -/
theorem Flags.step_main {pc : MainPc} {R : Multiset Frame}
    (h : Flags pc.rank σ (.main pc ::ₘ R)) (hs : Step tree σ x (.main pc) σ' fs) :
    Flags (mainRank fs) σ' ((fs : Multiset Frame) + R) := by
  obtain ⟨hsc, hp, hr, hl, hj, hle⟩ := h
  cases hs with
  | main hs =>
    cases hs <;> refine ⟨?_, ?_, ?_, by simpa [weigh_coe, poolWeight] using hl, ?_, ?_⟩ <;>
      simp_all [MainPc.rank, Scheduler.shutdown]

/-- What holds of the stacks and the flags in every reachable state. -/
structure WellFormed (m : DaemonState cfg) : Prop where
  shape : ∀ i, Shape i (m.stack i)
  flags : Flags (mainRank (m.stack .main)) m.shared m.frames

theorem WellFormed.step {maxScanId : ScanId} {m m' : DaemonState cfg} {a : Thread cfg × Input}
    (h : WellFormed m) (hs : (daemon cfg tree maxScanId).step m a = some m') :
    WellFormed m' := by
  obtain ⟨f, rest, fs, R, hf, hst, hm', hF, hF'⟩ := daemon_step hs
  have hsh := h.shape a.1
  rw [hf] at hsh
  have hfl := h.flags
  rw [hF] at hfl
  refine ⟨fun j => ?_, ?_⟩
  · rw [hm']
    by_cases hj : j = a.1
    · subst j; simpa using hsh.step hst
    · simpa [hj] using h.shape j
  · rw [hm', hF']
    by_cases hi : a.1 = .main
    · rw [hi] at hf hsh ⊢
      rw [Function.update_self]
      rw [hf] at hfl
      cases hsh with
      | running pc => simpa using hfl.step_main hst
      | canceling id todo all =>
        have hfs : fs = [] := by
          generalize m'.shared = τ at hst
          cases hst; rfl
        subst hfs
        exact hfl.step hst (by simp)
    · rw [Function.update_of_ne (Ne.symm hi)]
      exact hfl.step hst (hsh.ne_main hi)

/-- A weight that the first frames of the threads do not have. -/
theorem weigh_initial {M : Type*} [AddCommMonoid M] {maxScanId : ScanId} {w : Frame → M}
    (hw : ∀ i : Thread cfg, ∀ f ∈ initialStack i, w f = 0) :
    weigh w (daemon cfg tree maxScanId).init.frames = 0 :=
  weigh_eq_zero fun f hf => by
    obtain ⟨i, hi⟩ := Machine.mem_frames.mp hf
    exact hw i f hi

theorem weigh_poolWeight_initial (maxScanId : ScanId) :
    weigh poolWeight (daemon cfg tree maxScanId).init.frames = cfg.scanPoolNumThreads := by
  let worker : Fin cfg.scanPoolNumThreads ↪ Thread cfg := ⟨.worker, fun _ _ => Thread.worker.inj⟩
  rw [weigh_frames, ← Finset.sum_subset (Finset.subset_univ (Finset.univ.map worker))]
  · have hw : ∀ j : Fin cfg.scanPoolNumThreads,
        (((daemon cfg tree maxScanId).init.stack (worker j)).map poolWeight).sum = 1 :=
      fun _ => rfl
    simp [hw]
  · intro i _ hi
    cases i with
    | worker j => exact absurd (Finset.mem_map_of_mem worker (Finset.mem_univ j)) hi
    | _ => simp [daemon, initialStack, poolWeight]

/-- A step of the daemon is a step of the loop of `run`, or it leaves that loop where it is. -/
theorem WellFormed.step_cases {maxScanId : ScanId} {m m' : DaemonState cfg}
    {a : Thread cfg × Input} (h : WellFormed m)
    (hs : (daemon cfg tree maxScanId).step m a = some m') :
    (∃ pc fs R, m.stack .run = [.run pc] ∧ RunStep tree m.shared a.2 pc m'.shared fs ∧
      m'.stack .run = fs ∧ m.frames = .run pc ::ₘ R ∧ m'.frames = (fs : Multiset Frame) + R ∧
      a.1 = .run) ∨
    ∃ f rest fs R, m.stack a.1 = f :: rest ∧ Shape a.1 (f :: rest) ∧
      Step tree m.shared a.2 f m'.shared fs ∧ (∀ pc, f ≠ .run pc) ∧
      runPc (m'.stack .run) = runPc (m.stack .run) ∧
      m.frames = f ::ₘ R ∧ m'.frames = (fs : Multiset Frame) + R := by
  obtain ⟨f, rest, fs, R, hf, hst, hm', hF, hF'⟩ := daemon_step hs
  have hsh := h.shape a.1
  rw [hf] at hsh
  by_cases hr : ∃ pc, f = .run pc
  · obtain ⟨pc, rfl⟩ := hr
    have hi : a.1 = .run := by
      by_contra hi
      exact hsh.ne_run hi pc rfl
    rw [hi] at hf hsh hm'
    cases hsh
    generalize m'.shared = τ at hst ⊢
    cases hst with
    | run hst => exact .inl ⟨pc, fs, R, hf, hst, by simp [hm'], hF, hF', hi⟩
  · push Not at hr
    refine .inr ⟨f, rest, fs, R, hf, hsh, hst, hr, ?_, hF, hF'⟩
    rw [hm']
    by_cases hi : a.1 = .run
    · rw [hi] at hf hsh ⊢
      rw [hf, Function.update_self]
      generalize m'.shared = τ at hst
      cases hsh with
      | running pc => exact absurd rfl (hr pc)
      | refused data pc =>
        cases hst with
        | finish hst => cases hst <;> rfl
      | canceling id => cases hst; rfl
    · rw [Function.update_of_ne (Ne.symm hi)]

theorem wellFormed_initial (maxScanId : ScanId) :
    WellFormed (daemon cfg tree maxScanId).init := by
  refine ⟨shape_initial, ⟨?_, ?_, ?_, (weigh_poolWeight_initial maxScanId).symm, ?_, ?_⟩⟩ <;>
    simp [daemon, Shared.new, Scheduler.new, Manager.new, ExportManager.new, JobQueue.new,
      initialStack, MainPc.rank]

end ScanDaemon
