import ScanDaemon.Lifecycle.Life
import ScanDaemon.Lifecycle.Pending

/-! # The daemon lives the life of every scan

`life s m` reads the life of scan `s` off a state of the daemon. Every step of
the daemon is a step of that life or leaves it alone, so `Life.Valid` holds in
every reachable state.
-/

namespace ScanDaemon

open Interleave

variable {cfg : Config} {tree : ScanId → FsNode} {σ σ' : Shared cfg} {x : Input} {f : Frame}
  {fs rest : List Frame} {R : Multiset Frame} {s : ScanId} {ph : Phase}

/-- The stages of `task_on_job_finish`, as `FinishPc` without the data. -/
inductive Stage
  | decrement | notifyFinished | readCanceled | takeTask | pushSentinel | insertRow
  | exchange | notifyDispatch | gauge
  deriving DecidableEq

@[simp] def FinishPc.stage : FinishPc → Stage
  | .decrement => .decrement
  | .notifyFinished _ => .notifyFinished
  | .readCanceled _ => .readCanceled
  | .takeTask _ _ => .takeTask
  | .pushSentinel _ _ => .pushSentinel
  | .insertRow _ => .insertRow
  | .exchange => .exchange
  | .notifyDispatch => .notifyDispatch
  | .gauge => .gauge

/-- The stage of the call of `task_on_job_finish` that a frame is. -/
def Frame.stage : Frame → Option Stage
  | .finish _ pc => some pc.stage
  | _ => none

/-- Counts the calls of `task_on_job_finish` for `s` at a stage. -/
@[simp] def finishing (s : ScanId) (k : Stage) : Frame → ℕ
  | .finish id pc => if id = s ∧ pc.stage = k then 1 else 0
  | _ => 0

/-- Counts the rows of `s` that `task_on_job_finish` is about to store. -/
@[simp] def rowWeight (s : ScanId) : Frame → ℕ
  | .finish _ (.pushSentinel _ row) | .finish _ (.insertRow row) => if row.scanId = s then 1 else 0
  | _ => 0

/-- Counts the jobs of `s` that a frame has in hand and that are in its counter. -/
@[simp] def jobWeight (s : ScanId) : Frame → ℕ
  | .workerJob data pc => (if data.scanId = s then 1 else 0) + match pc with
    | .slots child _ | .push child _ => if child.scanId = s then 1 else 0
    | .entry | .scan | .loop _ | .submit _ _ => 0
  | .finish id .decrement => if id = s then 1 else 0
  | _ => 0

/-- Counts the calls of `Manager::cancel_scan` for `s`, made or announced. -/
@[simp] def cancelWeight (s : ScanId) : Frame → ℕ
  | .cancelScan id => if id = s then 1 else 0
  | .main (.cancelLoop todo _) => todo.count s
  | _ => 0

@[simp] def RunPc.phase (s : ScanId) : RunPc → Phase
  | .head => .away
  | .start data => if data.scanId = s then .start else .away
  | .submit data => if data.scanId = s then .submit else .away
  | .push data => if data.scanId = s then .push else .away
  | .full data => if data.scanId = s then .full else .away
  | .storeFailed data => if data.scanId = s then .storeFailed else .away
  | .erase data => if data.scanId = s then .erase else .away
  | .commit data managerAccept queueFull =>
    if data.scanId = s then .commit managerAccept queueFull else .away

/-- How far `run` has come with `s`, read from the stack of its thread. -/
def runPhase (s : ScanId) (l : List Frame) : Phase := (runPc l).elim .away (RunPc.phase s)

@[simp] theorem runPhase_nil : runPhase s [] = .away := rfl
@[simp] theorem runPhase_run {pc : RunPc} : runPhase s (.run pc :: rest) = pc.phase s := rfl
@[simp] theorem runPhase_cancelScan {id : ScanId} :
    runPhase s (.cancelScan id :: rest) = runPhase s rest := rfl
@[simp] theorem runPhase_finish {id : ScanId} {pc : FinishPc} :
    runPhase s (.finish id pc :: rest) = runPhase s rest := rfl

/-- A scan with a phase is the one that `run` is dispatching. -/
theorem mem_runData_of_phase {l : List Frame} (h : runPhase s l ≠ .away) :
    ∃ data ∈ runData l, data.scanId = s := by
  unfold runPhase at h
  unfold runData
  cases hp : runPc l with
  | none => simp [hp] at h
  | some pc => cases pc <;> simp [hp] at h <;> exact ⟨_, rfl, h⟩

theorem mem_runPc_of_phase {l : List Frame} (h : runPhase s l = ph) (hne : ph ≠ .away) :
    ∃ pc ∈ runPc l, pc.phase s = ph := by
  unfold runPhase at h
  cases hp : runPc l with
  | none => simp [hp] at h; exact absurd h.symm hne
  | some pc => exact ⟨pc, rfl, by simpa [hp] using h⟩

/-- The life of a scan in a memory with given frames. -/
def lifeOf (s : ScanId) (σ : Shared cfg) (F : Multiset Frame) (ph : Phase) : Life where
  state := σ.scheduler.state s
  stop := σ.scheduler.stopFlag
  poolStop := σ.manager.scanPool.jobQueue.stopFlag
  phase := ph
  registered := (σ.manager.registry.lookup s).isSome
  canceled := (σ.manager.context s).canceled
  unfinished := (σ.manager.context s).unfinishedJobs
  jobs := weigh (jobWeight s) F +
    σ.manager.scanPool.jobQueue.container.countP fun data => data.scanId = s
  cancels := weigh (cancelWeight s) F
  notifying := weigh (finishing s .notifyFinished) F
  reading := weigh (finishing s .readCanceled) F
  taking := weigh (finishing s .takeTask) F
  closed := weigh (rowWeight s) F + σ.history.stored.countP fun row => row.scanId = s
  accepted := σ.history.accepted.count s
  rejected := σ.history.rejected.count s
  drained := σ.history.drained.count s
  finished := σ.history.finished.count s

/-- The life of a scan in a state of the daemon. -/
def life (s : ScanId) (m : DaemonState cfg) : Life :=
  lifeOf s m.shared m.frames (runPhase s (m.stack .run))

/-- A step of a life, or none. -/
abbrev Lives (s : ScanId) : Life → Life → Prop := Relation.ReflGen (Life.Step s)

theorem Lives.of_eq {v w w' : Life} (h : Life.Step s v w) (he : w = w') : Lives s v w' :=
  he ▸ .single h

theorem Lives.stay {v w : Life} (he : v = w) : Lives s v w := he ▸ .refl

theorem HttpStep.lives {pc : HttpPc} (hs : HttpStep σ pc σ' fs) :
    Lives s (lifeOf s σ (.http pc ::ₘ R) ph) (lifeOf s σ' ((fs : Multiset Frame) + R) ph) := by
  cases hs with
  | take_submit | take_cancel | invalid | refuse | cancel_ignored | draw =>
    exact .stay (by simp [lifeOf, Scheduler.state, Scheduler.genScanId])
  | @accept id rootPath hstop ho hn =>
    by_cases hid : id = s
    · subst hid
      exact .of_eq (.enqueue hn hstop) (by simp [lifeOf])
    · exact .stay (by simp [lifeOf, Ne.symm hid])
  | @cancel_running id hst =>
    by_cases hid : id = s
    · subst hid
      exact .of_eq (.cancel hst) (by simp [lifeOf, add_comm])
    · exact .stay (by simp [lifeOf, hid, Ne.symm hid])
  | @cancel_pending id hst =>
    by_cases hid : id = s
    · subst hid
      exact .of_eq (.drop hst) (by simp [lifeOf])
    · exact .stay (by simp [lifeOf, Ne.symm hid])

theorem cancelScan_lives {id : ScanId} :
    Lives s (lifeOf s σ (.cancelScan id ::ₘ R) ph)
      (lifeOf s (σ.withManager (σ.manager.cancelScan id)) R ph) := by
  by_cases hid : id = s
  · subst hid
    refine .of_eq (.cancel_scan (by simp [lifeOf])) ?_
    cases hr : (σ.manager.registry.lookup id).isSome with
    | true => simp [lifeOf, Manager.cancelScan_registered hr, hr]
    | false => simp [lifeOf, Manager.cancelScan_unregistered hr, hr]
  · refine .stay ?_
    cases hr : (σ.manager.registry.lookup id).isSome with
    | true => simp [lifeOf, Manager.cancelScan_registered hr, hid, Ne.symm hid]
    | false => simp [lifeOf, Manager.cancelScan_unregistered hr, hid]

theorem state_notifyScanFinished {sc : Scheduler} {id : ScanId} :
    (sc.notifyScanFinished id).state s =
      if s = id then Life.finishedState (sc.state id) else sc.state s := by
  unfold Scheduler.notifyScanFinished Life.finishedState
  by_cases hid : s = id
  · subst hid
    rcases hst : sc.state s with _ | st
    · simp [hst]
    · cases st <;> simp [hst]
  · rcases hst : sc.state id with _ | st
    · simp [hid]
    · cases st <;> simp [hid]

theorem FinishStep.lives {id : ScanId} {pc : FinishPc} (hs : FinishStep σ x id pc σ' fs) :
    Lives s (lifeOf s σ (.finish id pc ::ₘ R) ph) (lifeOf s σ' ((fs : Multiset Frame) + R) ph) := by
  by_cases hid : id = s
  · subst hid
    cases hs with
    | drain hu => exact .of_eq (.drain (by simp [lifeOf]) hu) (by simp [lifeOf]; omega)
    | decrement hu => exact .of_eq (.decrement (by simp [lifeOf]) hu) (by simp [lifeOf]; omega)
    | notify_finished =>
      exact .of_eq (.notify_finished (by simp [lifeOf]))
        (by simp [lifeOf, state_notifyScanFinished, add_comm])
    | read_canceled => exact .of_eq (.read_canceled (by simp [lifeOf])) (by simp [lifeOf, add_comm])
    | task_missing hr =>
      exact .of_eq (.task_missing (by simp [lifeOf]) (by simp [lifeOf, hr])) (by simp [lifeOf])
    | task_zero h0 => exact .of_eq (.task_zero (by simp [lifeOf]) h0) (by simp [lifeOf])
    | take_task h0 hr =>
      exact .of_eq (.take_task (by simp [lifeOf]) (by simp [lifeOf, hr]))
        (by simp [lifeOf]; omega)
    | insert_row => exact .stay (by simp [lifeOf, List.countP_cons]; omega)
    | _ => exact .stay (by simp [lifeOf, Scheduler.state])
  · have hne := Ne.symm hid
    cases hs with
    | notify_finished => exact .stay (by simp [lifeOf, state_notifyScanFinished, hid, hne])
    | insert_row => exact .stay (by simp [lifeOf, List.countP_cons]; omega)
    | _ => exact .stay (by simp [lifeOf, Scheduler.state, hid, hne])

theorem RunStep.lives {pc : RunPc} (hs : RunStep tree σ x pc σ' fs) :
    Lives s (lifeOf s σ (.run pc ::ₘ R) (pc.phase s))
      (lifeOf s σ' ((fs : Multiset Frame) + R) (runPhase s fs)) := by
  cases hs with
  | stop | skip_dropped | skip => exact .stay (by simp [lifeOf])
  | @dispatch data _ hstop hq hr hp hst =>
    by_cases hid : data.scanId = s
    · subst hid
      exact .of_eq (.dispatch hst hstop (by simp [lifeOf])) (by simp [lifeOf])
    · exact .stay (by simp [lifeOf, hid, Ne.symm hid])
  | @throw data | @registered data =>
    by_cases hid : data.scanId = s
    · exact .of_eq (.start_failed (by simp [lifeOf, hid])) (by simp [lifeOf, hid])
    · exact .stay (by simp [lifeOf, hid])
  | @register data hr =>
    by_cases hid : data.scanId = s
    · subst hid
      exact .of_eq (.register (by simp [lifeOf]) (by simp [lifeOf, hr]))
        (by simp [lifeOf, ScanContext.new])
    · exact .stay (by simp [lifeOf, hid, Ne.symm hid])
  | @submit data =>
    by_cases hid : data.scanId = s
    · subst hid
      exact .of_eq (.submit_root (by simp [lifeOf])) (by simp [lifeOf])
    · exact .stay (by simp [lifeOf, hid, Ne.symm hid])
  | @accept data hps =>
    by_cases hid : data.scanId = s
    · exact .of_eq (.accept (by simp [lifeOf, hid]) hps) (by simp [lifeOf, hid, rootJob]; omega)
    · exact .stay (by simp [lifeOf, hid, rootJob])
  | @refuse_full data hps =>
    by_cases hid : data.scanId = s
    · exact .of_eq (.refuse_full (by simp [lifeOf, hid]) hps) (by simp [lifeOf, hid])
    · exact .stay (by simp [lifeOf, hid])
  | @refuse_shutdown data hps =>
    by_cases hid : data.scanId = s
    · exact .of_eq (.refuse_shutdown (by simp [lifeOf, hid]) hps)
        (by simp [lifeOf, hid]; omega)
    · exact .stay (by simp [lifeOf, hid])
  | @full data =>
    by_cases hid : data.scanId = s
    · subst hid
      exact .of_eq (.full (by simp [lifeOf])) (by simp [lifeOf])
    · exact .stay (by simp [lifeOf, hid, Ne.symm hid])
  | @store_failed data =>
    by_cases hid : data.scanId = s
    · exact .of_eq (.store_failed (by simp [lifeOf, hid])) (by simp [lifeOf, hid])
    · exact .stay (by simp [lifeOf, hid])
  | @erase data =>
    by_cases hid : data.scanId = s
    · subst hid
      exact .of_eq (.erase (by simp [lifeOf])) (by simp [lifeOf])
    · exact .stay (by simp [lifeOf, hid, Ne.symm hid])
  | @commit_canceled data queueFull hst =>
    by_cases hid : data.scanId = s
    · subst hid
      exact .of_eq (.commit_canceled (q := queueFull) (by simp [lifeOf]) hst)
        (by simp [lifeOf, add_comm])
    · exact .stay (by simp [lifeOf, hid])
  | @commit_canceled_refused data queueFull hst =>
    by_cases hid : data.scanId = s
    · subst hid
      exact .of_eq (.commit_canceled_refused (q := queueFull) (by simp [lifeOf]) hst)
        (by simp [lifeOf])
    · exact .stay (by simp [lifeOf, hid])
  | @commit_running data queueFull hst =>
    by_cases hid : data.scanId = s
    · subst hid
      exact .of_eq (.commit_running (q := queueFull) (by simp [lifeOf]) hst) (by simp [lifeOf])
    · exact .stay (by simp [lifeOf, hid, Ne.symm hid])
  | @commit_pending data hst =>
    by_cases hid : data.scanId = s
    · subst hid
      exact .of_eq (.commit_pending (by simp [lifeOf]) hst) (by simp [lifeOf])
    · exact .stay (by simp [lifeOf, hid, Ne.symm hid])
  | @commit_failed data hst =>
    by_cases hid : data.scanId = s
    · subst hid
      exact .of_eq (.commit_failed (by simp [lifeOf]) hst) (by simp [lifeOf])
    · exact .stay (by simp [lifeOf, hid, Ne.symm hid])
  | @commit_other data managerAccept queueFull hc hd =>
    by_cases hid : data.scanId = s
    · subst hid
      exact .of_eq (.commit_other (a := managerAccept) (q := queueFull) (by simp [lifeOf]) hc hd)
        (by simp [lifeOf])
    · exact .stay (by simp [lifeOf, hid])

theorem WorkerStep.lives (hs : WorkerStep σ σ' fs) :
    Lives s (lifeOf s σ (.workForever ::ₘ R) ph)
      (lifeOf s σ' ((fs : Multiset Frame) + R) ph) := by
  cases hs with
  | exit hc hps => exact .stay (by simp [lifeOf, hps])
  | @take data rest hc => exact .stay (by simp [lifeOf, hc]; omega)

theorem JobStep.lives {data : ScanData} {pc : JobPc} (hs : JobStep σ data pc σ' fs)
    (hj : (Frame.workerJob data pc).IsJob) :
    Lives s (lifeOf s σ (.workerJob data pc ::ₘ R) ph)
      (lifeOf s σ' ((fs : Multiset Frame) + R) ph) := by
  cases hs with
  | @submit child rest =>
    have hc : child.scanId = data.scanId := hj child (by simp [JobPc.todo])
    by_cases hid : data.scanId = s
    · exact .of_eq (.spawn (by simp [lifeOf, hid])) (by simp [lifeOf, hc, hid]; omega)
    · exact .stay (by simp [lifeOf, hc, hid, Ne.symm hid])
  | slots_taken => exact .stay (by simp [lifeOf]; omega)
  | full => exact .stay (by simp [lifeOf]; omega)
  | shutdown => exact .stay (by simp [lifeOf]; omega)
  | pushed => exact .stay (by simp [lifeOf]; omega)
  | _ => exact .stay (by simp [lifeOf])

theorem ResultStep.lives {pc : ResultPc} (hs : ResultStep σ pc σ' fs) :
    Lives s (lifeOf s σ (.result pc ::ₘ R) ph)
      (lifeOf s σ' ((fs : Multiset Frame) + R) ph) := by
  cases hs <;> exact .stay (by simp [lifeOf])

theorem Scheduler.Queued.state_shutdown {sc : Scheduler} {current : Option PendingRoot}
    (h : sc.Queued current) : sc.shutdown.2.state s = Life.shutdownState (sc.state s) := by
  rw [Scheduler.state_shutdown]
  have hmem : sc.state s = some .pending → s ∈ sc.pendingQueue.map PendingRoot.scanId := by
    intro hp
    obtain ⟨data, hd, rfl⟩ := h.pending s hp
    exact List.mem_map_of_mem hd
  have hnone : sc.state s = none → s ∉ sc.pendingQueue.map PendingRoot.scanId := by
    intro hn hm
    obtain ⟨data, hd, rfl⟩ := List.mem_map.mp hm
    exact h.known data hd hn
  rcases hst : sc.state s with _ | st
  · have hn := hnone hst
    rw [if_neg (by simp [MaybeRunning]), if_neg (fun h => hn h.1)]
    rfl
  · cases st with
    | pending => rw [if_neg (by simp [MaybeRunning]), if_pos ⟨hmem hst, .inl rfl⟩]; rfl
    | _ => simp [MaybeRunning, Life.shutdownState]

theorem MainStep.lives {pc : MainPc} {current : Option PendingRoot} (hs : MainStep σ pc σ' fs)
    (hq : σ.scheduler.Queued current) (hstop : 1 ≤ pc.rank → σ.scheduler.stopFlag = true) :
    Lives s (lifeOf s σ (.main pc ::ₘ R) ph)
      (lifeOf s σ' ((fs : Multiset Frame) + R) ph) := by
  cases hs with
  | shutdown =>
    refine .of_eq (.shutdown (k := σ.scheduler.shutdown.1.count s) ?_) ?_
    · rw [List.count_pos_iff, Scheduler.mem_shutdown]
      rfl
    · have hstop : σ.scheduler.shutdown.2.stopFlag = true := rfl
      simp [lifeOf, hq.state_shutdown, hstop, add_comm]
  | stop_pool => exact .of_eq (.stop_pool (hstop (by simp [MainPc.rank]))) (by simp [lifeOf])
  | @cancel_next id todo all =>
    exact .stay (by simp [lifeOf, List.count_cons]; omega)
  | _ => exact .stay (by simp [lifeOf])

/-- A step that is not one of `run` leaves the phases of all scans alone. -/
theorem Step.lives {current : Option PendingRoot} (hs : Step tree σ x f σ' fs)
    (hf : ∀ pc, f ≠ .run pc) (hj : ∀ data pc, f = .workerJob data pc → f.IsJob)
    (hq : σ.scheduler.Queued current)
    (hstop : ∀ pc, f = .main pc → 1 ≤ pc.rank → σ.scheduler.stopFlag = true) :
    Lives s (lifeOf s σ (f ::ₘ R) ph) (lifeOf s σ' ((fs : Multiset Frame) + R) ph) := by
  cases hs with
  | http hs => exact hs.lives
  | cancelScan => simpa using cancelScan_lives
  | run => exact absurd rfl (hf _)
  | workForever hs => exact hs.lives
  | workerJob hs => exact hs.lives (hj _ _ rfl)
  | finish hs => exact hs.lives
  | result hs => exact hs.lives
  | main hs => exact hs.lives hq (hstop _ rfl)

/-- The stacks, the pending queue and the life of every scan are sound. -/
structure Sound (m : DaemonState cfg) : Prop extends WellFormed m where
  queued : m.shared.scheduler.Queued (runData (m.stack .run))
  valid : ∀ s, (life s m).Valid s

variable {maxScanId : ScanId} {m m' : DaemonState cfg} {a : Thread cfg × Input}

/-- Every step of the daemon is a step in the life of each scan, or none. -/
theorem Sound.lives (h : Sound m) (hs : (daemon cfg tree maxScanId).step m a = some m')
    (s : ScanId) : Lives s (life s m) (life s m') := by
  unfold life
  rcases h.step_cases hs with ⟨pc, fs, R, hr, hst, hr', hF, hF', -⟩ |
    ⟨f, rest, fs, R, hf, hsh, hst, hne, hpc, hF, hF'⟩
  · rw [hF, hF', hr, hr']
    exact hst.lives
  · rw [hF, hF', runPhase, runPhase, hpc]
    refine hst.lives hne (fun data pc he => ?_) h.queued fun pc he hrank => ?_
    · subst he; exact hsh.worker.1
    · subst he
      have hmain : a.1 = .main := by
        by_contra hi
        exact hsh.ne_main hi pc rfl
      have hfl := h.flags.scheduler
      rw [← hmain, hf] at hfl
      exact hfl.mpr hrank

theorem Sound.queued_step (h : Sound m) (hs : (daemon cfg tree maxScanId).step m a = some m') :
    m'.shared.scheduler.Queued (runData (m'.stack .run)) := by
  have hq := h.queued
  rcases h.step_cases hs with ⟨pc, fs, R, hr, hst, hr', -⟩ |
    ⟨f, rest, fs, R, hf, hsh, hst, hne, hpc, -⟩
  · rw [hr] at hq
    rw [hr']
    refine hq.step_run hst fun data _ hd => ?_
    by_contra hstop
    exact ((h.valid data.scanId).stopped (by simpa [life, lifeOf] using hstop)).2.2 hd
  · rw [runData, hpc]
    exact hq.step hst hne

theorem Sound.step (h : Sound m) (hs : (daemon cfg tree maxScanId).step m a = some m') :
    Sound m' where
  toWellFormed := h.toWellFormed.step hs
  queued := h.queued_step hs
  valid s := by
    rcases Relation.reflGen_iff _ _ _ |>.mp (h.lives hs s) with he | hv
    · rw [he]; exact h.valid s
    · exact (h.valid s).step hv

/-- Before the first step nothing has happened to any scan. -/
theorem life_initial (s : ScanId) : life s (daemon cfg tree maxScanId).init = Life.new := by
  unfold life lifeOf
  rw [weigh_initial, weigh_initial, weigh_initial, weigh_initial, weigh_initial, weigh_initial]
  · rfl
  all_goals
    intro i f hf
    cases i <;> simp [initialStack] at hf <;> subst hf <;> rfl

theorem sound_initial : Sound (daemon cfg tree maxScanId).init where
  toWellFormed := wellFormed_initial maxScanId
  queued := by constructor <;> simp [daemon, Shared.new, Scheduler.new, initialStack,
    Scheduler.state, runData, runPc, RunPc.data]
  valid s := by rw [life_initial]; exact Life.valid_new

theorem sound_of_reachable (h : (daemon cfg tree maxScanId).Reachable m) : Sound m :=
  h.invariant sound_initial fun _ _ _ _ _ hs hm => hm.step hs

end ScanDaemon
