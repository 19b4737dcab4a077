import ScanDaemon.Common.Types

/-! # The life of one scan

An abstract machine that follows a single scan through the daemon: the state
that the scheduler records for it, how far `run` has come with dispatching it,
its registration, its counter of unfinished jobs and the stages of the finish
protocol. All other scans, the threads and the data are left out. `Valid`
collects what holds throughout a life.
-/

namespace ScanDaemon

/-- How far `run` has come with the dispatch of a scan. -/
inductive Phase
  | away | start | submit | push | full | storeFailed | erase
  | commit (managerAccept queueFull : Bool)
  deriving DecidableEq

namespace Phase

/-- The phases in which the scan may still be refused with a full queue. -/
def early : Phase → ℕ
  | .start | .submit | .push | .full | .storeFailed | .erase | .commit false true => 1
  | .away | .commit true _ | .commit false false => 0

/-- The phases in which `start_new_scan` has registered the scan. -/
def entered : Phase → ℕ
  | .submit | .push | .full | .storeFailed | .erase => 1
  | _ => 0

/-- The phases in which the counter includes a root job that is not in the pool. -/
def counted : Phase → ℕ
  | .push | .full => 1
  | _ => 0

end Phase

structure Life where
  state : Option RequestState
  /-- whether the scheduler has been shut down -/
  stop : Bool
  /-- whether the scan pool has been shut down -/
  poolStop : Bool
  phase : Phase
  registered : Bool
  canceled : Bool
  unfinished : ℤ
  /-- the jobs in the pool and on the stacks -/
  jobs : ℕ
  /-- the calls of `Manager::cancel_scan` under way -/
  cancels : ℕ
  /-- the number of calls of `task_on_job_finish` at each stage behind the counter -/
  notifying : ℕ
  reading : ℕ
  taking : ℕ
  closed : ℕ
  accepted : ℕ
  rejected : ℕ
  drained : ℕ
  finished : ℕ

namespace Life

def new : Life where
  state := none
  stop := false
  poolStop := false
  phase := .away
  registered := false
  canceled := false
  unfinished := 0
  jobs := 0
  cancels := 0
  notifying := 0
  reading := 0
  taking := 0
  closed := 0
  accepted := 0
  rejected := 0
  drained := 0
  finished := 0

/-- The state after `notify_scan_finished`. -/
def finishedState : Option RequestState → Option RequestState
  | some .running | some .dispatching => some .done
  | st => st

/-- The state after the critical section of `Scheduler::shutdown`. -/
def shutdownState : Option RequestState → Option RequestState
  | some .running | some .dispatching | some .canceled => some .canceled
  | some .pending => some .dropped
  | st => st

variable {s : ScanId} {v w : Life}

/-- The steps of the life of scan `s`. -/
inductive Step (s : ScanId) (v : Life) : Life → Prop where

  | enqueue : v.state = none → v.stop = false → Step s v { v with state := some .pending }

  | drop : v.state = some .pending → Step s v { v with state := some .dropped }

  | cancel : v.state = some .running ∨ v.state = some .dispatching →
      Step s v { v with state := some .canceled, cancels := v.cancels + 1 }

  | cancel_scan : 0 < v.cancels →
      Step s v { v with cancels := v.cancels - 1, canceled := v.canceled || v.registered }

  | dispatch : v.state = some .pending → v.stop = false → v.phase = .away →
      Step s v { v with state := some .dispatching, phase := .start }

  | start_failed : v.phase = .start → Step s v { v with phase := .commit false false }

  | register : v.phase = .start → v.registered = false →
      Step s v { v with
        phase := .submit, registered := true, canceled := false, unfinished := 0 }

  | submit_root : v.phase = .submit →
      Step s v { v with phase := .push, unfinished := v.unfinished + 1 }

  | accept : v.phase = .push → v.poolStop = false →
      Step s v { v with
        phase := .commit true false, accepted := v.accepted + 1, jobs := v.jobs + 1 }

  | refuse_full : v.phase = .push → v.poolStop = false → Step s v { v with phase := .full }

  | refuse_shutdown : v.phase = .push → v.poolStop = true →
      Step s v { v with
        phase := .commit false false, rejected := v.rejected + 1, jobs := v.jobs + 1 }

  | full : v.phase = .full →
      Step s v { v with phase := .storeFailed, unfinished := v.unfinished - 1 }

  | store_failed : v.phase = .storeFailed → Step s v { v with phase := .erase }

  | erase : v.phase = .erase →
      Step s v { v with phase := .commit false true, registered := false }

  | commit_canceled {q : Bool} : v.phase = .commit true q →
      v.state = some .canceled → Step s v { v with phase := .away, cancels := v.cancels + 1 }

  | commit_canceled_refused {q : Bool} : v.phase = .commit false q →
      v.state = some .canceled → Step s v { v with phase := .away }

  | commit_running {q : Bool} : v.phase = .commit true q →
      v.state = some .dispatching → Step s v { v with phase := .away, state := some .running }

  | commit_pending : v.phase = .commit false true → v.state = some .dispatching →
      Step s v { v with phase := .away, state := some .pending }

  | commit_failed : v.phase = .commit false false → v.state = some .dispatching →
      Step s v { v with phase := .away, state := some .failed }

  | commit_other {a q : Bool} : v.phase = .commit a q →
      v.state ≠ some .canceled → v.state ≠ some .dispatching → Step s v { v with phase := .away }

  | spawn : 0 < v.jobs → Step s v { v with unfinished := v.unfinished + 1, jobs := v.jobs + 1 }

  | drain : 0 < v.jobs → v.unfinished = 1 →
      Step s v { v with
        unfinished := v.unfinished - 1, jobs := v.jobs - 1
        drained := v.drained + 1, notifying := v.notifying + 1 }

  | decrement : 0 < v.jobs → v.unfinished ≠ 1 →
      Step s v { v with unfinished := v.unfinished - 1, jobs := v.jobs - 1 }

  | notify_finished : 0 < v.notifying →
      Step s v { v with
        state := finishedState v.state
        notifying := v.notifying - 1, reading := v.reading + 1, finished := v.finished + 1 }

  | read_canceled : 0 < v.reading →
      Step s v { v with reading := v.reading - 1, taking := v.taking + 1 }

  | task_missing : 0 < v.taking → v.registered = false →
      Step s v { v with taking := v.taking - 1 }

  | task_zero : 0 < v.taking → s = 0 →
      Step s v { v with taking := v.taking - 1, registered := false }

  | take_task : 0 < v.taking → v.registered = true →
      Step s v { v with taking := v.taking - 1, closed := v.closed + 1, registered := false }

  | shutdown {k : ℕ} :
      (0 < k ↔ v.state = some .running ∨ v.state = some .dispatching ∨
        v.state = some .canceled) →
      Step s v { v with
        stop := true, state := shutdownState v.state, cancels := v.cancels + k }

  | stop_pool : v.stop = true → Step s v { v with poolStop := true }

/-- What holds throughout the life of a scan. -/
structure Valid (s : ScanId) (v : Life) : Prop where
  /-- the counter counts the jobs -/
  counter : v.unfinished = v.jobs + v.phase.counted
  /-- a root job is queued or refused at most once -/
  once : v.accepted + v.rejected + v.phase.early ≤ 1
  /-- the counter is taken to 0 exactly when the last job is over -/
  drain : v.drained + (if 0 < v.jobs then 1 else 0) = v.accepted + v.rejected
  closing : v.notifying + v.reading + v.taking + v.closed ≤ v.drained
  closing_eq : s ≠ 0 → v.notifying + v.reading + v.taking + v.closed = v.drained
  notified : v.finished + v.notifying = v.drained
  registry : v.registered.toNat + v.drained = v.phase.entered + v.accepted + v.rejected +
    v.notifying + v.reading + v.taking
  /-- the pool is stopped by the shutdown of the scheduler -/
  pool : v.poolStop = true → v.stop = true
  before : v.state = none ∨ v.state = some .pending ∨ v.state = some .dropped ∨
    v.state = some .failed → v.phase = .away ∧ v.accepted + v.rejected = 0
  running : v.state = some .running → v.phase = .away ∧ v.accepted = 1 ∧ v.finished = 0
  dispatching : v.state = some .dispatching → v.phase ≠ .away ∧ v.rejected = 0 ∧ v.finished = 0
  done : v.state = some .done → v.accepted = 1 ∧ v.finished = 1
  stopped : v.stop = true → v.state ≠ some .pending ∧ v.state ≠ some .running ∧
    v.state ≠ some .dispatching
  /-- a root job that the manager has taken is committed as such -/
  committing : ∀ queueFull, v.phase = .commit true queueFull → v.accepted = 1
  /-- an accepted scan is committed before its dispatch is left -/
  accepted : v.accepted = 1 → v.phase = .away ∨ ∃ queueFull, v.phase = .commit true queueFull
  rejected : 0 < v.rejected → v.state = some .canceled ∧ v.stop = true
  cancels : 0 < v.cancels → v.state = some .canceled
  canceled : v.canceled = true → v.state = some .canceled
  /-- the cancellation of an accepted scan reaches its context -/
  reaches : v.state = some .canceled → v.accepted = 1 → v.registered = true →
    v.canceled = true ∨ 0 < v.cancels ∨ v.phase ≠ .away

theorem valid_new : Valid s new := by
  constructor <;> simp [new, Phase.counted, Phase.early, Phase.entered]


theorem Valid.of_early (h : Valid s v) (he : v.phase.early = 1) :
    v.accepted = 0 ∧ v.rejected = 0 ∧ v.drained = 0 ∧ v.jobs = 0 := by
  have h₁ := h.once
  have h₂ := h.drain
  split_ifs at h₂ <;> omega

theorem Valid.of_jobs (h : Valid s v) (hj : 0 < v.jobs) :
    v.accepted + v.rejected = 1 ∧ v.drained = 0 ∧ v.phase.counted = 0 := by
  have h₁ := h.once
  have h₂ := h.drain
  rw [if_pos hj] at h₂
  refine ⟨by omega, by omega, ?_⟩
  cases hp : v.phase with
  | push | full => simp only [hp, Phase.early] at h₁; omega
  | _ => rfl

theorem Valid.of_notifying (h : Valid s v) (hn : 0 < v.notifying) :
    v.accepted + v.rejected = 1 ∧ v.finished = 0 := by
  have h₁ := h.once
  have h₂ := h.drain
  have h₃ := h.notified
  split_ifs at h₂ <;> omega

/-- A scan with a phase behind it is being dispatched, canceled or done. -/
theorem Valid.state_of_phase (h : Valid s v) (hp : v.phase ≠ .away) :
    v.state = some .dispatching ∨ v.state = some .canceled ∨ v.state = some .done := by
  have h₁ := h.before
  have h₂ := h.running
  rcases hst : v.state with _ | st
  · exact absurd (h₁ (.inl hst)).1 hp
  · cases st with
    | pending | dropped | failed => exact absurd (h₁ (by simp [hst])).1 hp
    | running => exact absurd (h₂ hst).1 hp
    | canceled | done | dispatching => simp

theorem finishedState_cases (st : Option RequestState) :
    finishedState st = some .done ∧ (st = some .running ∨ st = some .dispatching) ∨
      finishedState st = st ∧ st ≠ some .running ∧ st ≠ some .dispatching := by
  unfold finishedState
  split <;> simp_all

theorem shutdownState_cases (st : Option RequestState) :
    shutdownState st = some .canceled ∧
        (st = some .running ∨ st = some .dispatching ∨ st = some .canceled) ∨
      shutdownState st = some .dropped ∧ st = some .pending ∨
      shutdownState st = st ∧ st ≠ some .running ∧ st ≠ some .dispatching ∧
        st ≠ some .canceled ∧ st ≠ some .pending := by
  unfold shutdownState
  split <;> simp_all

theorem counter_step (h : Valid s v) (hs : Step s v w) :
    w.unfinished = w.jobs + w.phase.counted := by
  have hc := h.counter
  cases hs with
  | register hp => simp [(h.of_early (by rw [hp]; rfl)).2.2.2, Phase.counted]
  | drain hj hu | decrement hj hu =>
    have h₁ := h.of_jobs hj
    simp only
    omega
  | dispatch _ _ hp | start_failed hp | submit_root hp | accept hp | refuse_full hp
  | refuse_shutdown hp | full hp | store_failed hp | erase hp | commit_canceled hp
  | commit_canceled_refused hp | commit_running hp | commit_pending hp | commit_failed hp
  | commit_other hp =>
    simp only [hp, Phase.counted] at hc ⊢
    omega
  | spawn => simp only; omega
  | _ => exact hc

theorem once_step (h : Valid s v) (hs : Step s v w) :
    w.accepted + w.rejected + w.phase.early ≤ 1 := by
  have ho := h.once
  cases hs with
  | dispatch hst _ hp => simp [(h.before (.inr (.inl hst))).2, Phase.early]
  | commit_canceled hp | commit_canceled_refused hp | commit_running hp | commit_pending hp
  | commit_failed hp | commit_other hp | start_failed hp =>
    simp only [Phase.early]
    omega
  | register hp | submit_root hp | accept hp | refuse_full hp | refuse_shutdown hp | full hp
  | store_failed hp | erase hp =>
    simp only [hp, Phase.early] at ho ⊢
    omega
  | _ => exact ho

theorem drain_step (h : Valid s v) (hs : Step s v w) :
    w.drained + (if 0 < w.jobs then 1 else 0) = w.accepted + w.rejected := by
  have hd := h.drain
  cases hs with
  | accept hp | refuse_shutdown hp =>
    obtain ⟨h₁, h₂, h₃, h₄⟩ := h.of_early (by rw [hp]; rfl)
    simp [h₁, h₂, h₃, h₄]
  | spawn hj =>
    rw [if_pos hj] at hd
    simpa using hd
  | drain hj hu =>
    obtain ⟨h₁, h₂, h₃⟩ := h.of_jobs hj
    have hc := h.counter
    simp only
    split_ifs <;> omega
  | decrement hj hu =>
    obtain ⟨h₁, h₂, h₃⟩ := h.of_jobs hj
    have hc := h.counter
    simp only
    split_ifs <;> omega
  | _ => exact hd

theorem closing_step (h : Valid s v) (hs : Step s v w) :
    w.notifying + w.reading + w.taking + w.closed ≤ w.drained := by
  have hc := h.closing
  cases hs with
  | drain | notify_finished | read_canceled | task_missing | task_zero | take_task =>
    simp only
    omega
  | _ => exact hc

/-- The registry entry of a scan that is drained stays until it is taken. -/
theorem Valid.registered_of_taking (h : Valid s v) (ht : 0 < v.taking) :
    v.registered = true := by
  have h₁ := h.registry
  have h₂ := h.closing
  have h₃ := h.once
  have h₄ := h.drain
  by_contra hr
  rw [Bool.not_eq_true] at hr
  simp only [hr, Bool.toNat_false] at h₁
  split_ifs at h₄ <;> omega

theorem closing_eq_step (h : Valid s v) (hs : Step s v w) (hne : s ≠ 0) :
    w.notifying + w.reading + w.taking + w.closed = w.drained := by
  have hc := h.closing_eq hne
  cases hs with
  | task_missing ht hr => simp [h.registered_of_taking ht] at hr
  | task_zero _ h0 => exact absurd h0 hne
  | drain | notify_finished | read_canceled | take_task =>
    simp only
    omega
  | _ => exact hc

theorem notified_step (h : Valid s v) (hs : Step s v w) :
    w.finished + w.notifying = w.drained := by
  have hn := h.notified
  cases hs with
  | drain | notify_finished =>
    simp only
    omega
  | _ => exact hn

theorem registry_step (h : Valid s v) (hs : Step s v w) :
    w.registered.toNat + w.drained = w.phase.entered + w.accepted + w.rejected +
      w.notifying + w.reading + w.taking := by
  have hr := h.registry
  cases hs with
  | register hp hreg =>
    simp only [hp, hreg, Phase.entered, Bool.toNat_true, Bool.toNat_false] at hr ⊢
    omega
  | erase hp =>
    have hk := h.of_early (by rw [hp]; rfl)
    have hc := h.closing
    simp only [Phase.entered, Bool.toNat_false]
    omega
  | dispatch _ _ hp | start_failed hp | submit_root hp | accept hp | refuse_full hp
  | refuse_shutdown hp | full hp | store_failed hp | commit_canceled hp
  | commit_canceled_refused hp | commit_running hp | commit_pending hp | commit_failed hp
  | commit_other hp =>
    simp only [hp, Phase.entered] at hr ⊢
    omega
  | drain | notify_finished | read_canceled =>
    simp only
    omega
  | task_missing ht hreg => simp [h.registered_of_taking ht] at hreg
  | task_zero ht =>
    simp only [h.registered_of_taking ht, Bool.toNat_true, Bool.toNat_false] at hr ⊢
    omega
  | take_task ht hreg =>
    simp only [hreg, Bool.toNat_true, Bool.toNat_false] at hr ⊢
    omega
  | _ => exact hr

theorem pool_step (h : Valid s v) (hs : Step s v w) (hp : w.poolStop = true) : w.stop = true := by
  cases hs with
  | shutdown => rfl
  | stop_pool hstop => exact hstop
  | _ => exact h.pool hp

theorem before_step (h : Valid s v) (hs : Step s v w)
    (hst : w.state = none ∨ w.state = some .pending ∨ w.state = some .dropped ∨
      w.state = some .failed) : w.phase = .away ∧ w.accepted + w.rejected = 0 := by
  have hb := h.before
  cases hs with
  | enqueue hn => exact hb (.inl hn)
  | drop hn => exact hb (.inr (.inl hn))
  | commit_pending hp hd =>
    exact ⟨rfl, by have := h.of_early (by rw [hp]; rfl); simp only; omega⟩
  | commit_failed hp hd =>
    refine ⟨rfl, ?_⟩
    have h₁ := h.once
    have h₂ := (h.dispatching hd).2.1
    have h₃ := h.accepted
    simp only
    rcases Nat.lt_or_ge 0 v.accepted with ha | ha
    · simp [hp] at h₃; omega
    · omega
  | notify_finished hn =>
    rcases finishedState_cases v.state with ⟨he, _⟩ | ⟨he, _⟩ <;> simp only [he] at hst
    · simp at hst
    · exact hb hst
  | shutdown =>
    rcases shutdownState_cases v.state with ⟨he, _⟩ | ⟨_, hp⟩ | ⟨he, _⟩
    · simp [he] at hst
    · exact hb (.inr (.inl hp))
    · simp only [he] at hst
      exact hb hst
  | cancel | dispatch | commit_running => simp at hst
  | start_failed hp | submit_root hp | accept hp | refuse_full hp
  | refuse_shutdown hp | full hp | store_failed hp | erase hp | register hp =>
    exact absurd (hb hst).1 (by simp [hp])
  | commit_canceled hp | commit_canceled_refused hp | commit_other hp =>
    exact absurd (hb hst).1 (by simp [hp])
  | _ => exact hb hst

theorem running_step (h : Valid s v) (hs : Step s v w) (hst : w.state = some .running) :
    w.phase = .away ∧ w.accepted = 1 ∧ w.finished = 0 := by
  have hr := h.running
  cases hs with
  | enqueue | drop | cancel | dispatch | commit_pending | commit_failed => simp at hst
  | commit_running hp hd => exact ⟨rfl, h.committing _ hp, (h.dispatching hd).2.2⟩
  | notify_finished hn =>
    rcases finishedState_cases v.state with ⟨he, _⟩ | ⟨he, hne, _⟩ <;> simp only [he] at hst
    · simp at hst
    · exact absurd hst hne
  | shutdown =>
    rcases shutdownState_cases v.state with ⟨he, _⟩ | ⟨he, _⟩ | ⟨he, hne, _⟩ <;>
      simp only [he] at hst
    · simp at hst
    · simp at hst
    · exact absurd hst hne
  | start_failed hp | submit_root hp | accept hp | refuse_full hp
  | refuse_shutdown hp | full hp | store_failed hp | erase hp | register hp
  | commit_canceled hp | commit_canceled_refused hp | commit_other hp =>
    exact absurd (hr hst).1 (by simp [hp])
  | _ => exact hr hst

theorem dispatching_step (h : Valid s v) (hs : Step s v w) (hst : w.state = some .dispatching) :
    w.phase ≠ .away ∧ w.rejected = 0 ∧ w.finished = 0 := by
  have hd := h.dispatching
  cases hs with
  | enqueue | drop | cancel | commit_pending | commit_failed | commit_running => simp at hst
  | dispatch hp hstop ha =>
    have hb := (h.before (.inr (.inl hp))).2
    have h₁ := h.drain
    have h₂ := h.notified
    refine ⟨by simp, ?_, ?_⟩ <;> simp only <;> split_ifs at h₁ <;> omega
  | refuse_shutdown hp hps => exact absurd hst (h.stopped (h.pool hps)).2.2
  | notify_finished hn =>
    rcases finishedState_cases v.state with ⟨he, _⟩ | ⟨he, _, hne⟩ <;> simp only [he] at hst
    · simp at hst
    · exact absurd hst hne
  | shutdown =>
    rcases shutdownState_cases v.state with ⟨he, _⟩ | ⟨he, _⟩ | ⟨he, _, hne, _⟩ <;>
      simp only [he] at hst
    · simp at hst
    · simp at hst
    · exact absurd hst hne
  | commit_canceled _ hc | commit_canceled_refused _ hc => simp [hc] at hst
  | commit_other _ _ hne => exact absurd hst hne
  | start_failed hp | submit_root hp | accept hp | refuse_full hp
  | full hp | store_failed hp | erase hp | register hp =>
    exact ⟨by simp, (hd hst).2⟩
  | _ => exact hd hst

theorem done_step (h : Valid s v) (hs : Step s v w) (hst : w.state = some .done) :
    w.accepted = 1 ∧ w.finished = 1 := by
  have hd := h.done
  cases hs with
  | enqueue | drop | cancel | dispatch | commit_pending | commit_failed | commit_running =>
    simp at hst
  | accept hp | refuse_shutdown hp =>
    have hk := h.of_early (by rw [hp]; rfl)
    have h₁ := hd hst
    omega
  | notify_finished hn =>
    obtain ⟨h₁, h₂⟩ := h.of_notifying hn
    rcases finishedState_cases v.state with ⟨_, hr | hr⟩ | ⟨he, _⟩
    · exact ⟨(h.running hr).2.1, by simp only; omega⟩
    · have h₃ := (h.dispatching hr).2.1
      exact ⟨by simp only; omega, by simp only; omega⟩
    · simp only [he] at hst
      have h₃ := hd hst
      omega
  | shutdown =>
    rcases shutdownState_cases v.state with ⟨he, _⟩ | ⟨he, _⟩ | ⟨he, _⟩ <;> simp only [he] at hst
    · simp at hst
    · simp at hst
    · exact hd hst
  | _ => exact hd hst

theorem stopped_step (h : Valid s v) (hs : Step s v w) (hstop : w.stop = true) :
    w.state ≠ some .pending ∧ w.state ≠ some .running ∧ w.state ≠ some .dispatching := by
  have hst := h.stopped
  cases hs with
  | enqueue _ hf | dispatch _ hf => simp [hf] at hstop
  | drop | cancel | commit_failed => simp
  | commit_running _ hd | commit_pending _ hd => exact absurd hd (hst hstop).2.2
  | notify_finished =>
    rcases finishedState_cases v.state with ⟨he, _⟩ | ⟨he, _⟩ <;> simp only [he]
    · simp
    · exact hst hstop
  | shutdown =>
    rcases shutdownState_cases v.state with ⟨he, _⟩ | ⟨he, _⟩ | ⟨he, h₁, h₂, _, h₃⟩ <;>
      simp only [he]
    · simp
    · simp
    · exact ⟨h₃, h₁, h₂⟩
  | _ => exact hst hstop

theorem committing_step (h : Valid s v) (hs : Step s v w) (queueFull : Bool)
    (hp : w.phase = .commit true queueFull) : w.accepted = 1 := by
  have hc := h.committing queueFull
  cases hs with
  | dispatch | start_failed | register | submit_root | refuse_full | refuse_shutdown | full
  | store_failed | erase | commit_canceled | commit_canceled_refused | commit_running
  | commit_pending | commit_failed | commit_other => simp at hp
  | accept hpush =>
    have hk := h.of_early (by rw [hpush]; rfl)
    simp only
    omega
  | _ => exact hc hp

theorem accepted_step (h : Valid s v) (hs : Step s v w) (ha : w.accepted = 1) :
    w.phase = .away ∨ ∃ queueFull, w.phase = .commit true queueFull := by
  have hacc := h.accepted
  cases hs with
  | dispatch hp => have := (h.before (.inr (.inl hp))).2; simp only at ha; omega
  | start_failed hp | register hp | submit_root hp | refuse_full hp | refuse_shutdown hp | full hp
  | store_failed hp | erase hp =>
    have hk := h.of_early (by rw [hp]; rfl)
    simp only at ha
    omega
  | accept => exact .inr ⟨false, rfl⟩
  | commit_canceled | commit_canceled_refused | commit_running | commit_pending | commit_failed
  | commit_other => exact .inl rfl
  | _ => exact hacc ha

theorem rejected_step (h : Valid s v) (hs : Step s v w) (hr : 0 < w.rejected) :
    w.state = some .canceled ∧ w.stop = true := by
  have hrej := h.rejected
  cases hs with
  | enqueue hn => have := (h.before (.inl hn)).2; simp only at hr; omega
  | drop hn | dispatch hn => have := (h.before (.inr (.inl hn))).2; simp only at hr; omega
  | cancel => exact ⟨rfl, (hrej hr).2⟩
  | refuse_shutdown hp hps =>
    have hstop := h.pool hps
    refine ⟨?_, hstop⟩
    rcases h.state_of_phase (by simp [hp]) with hst | hst | hst
    · exact absurd hst (h.stopped hstop).2.2
    · exact hst
    · have hk := h.of_early (by rw [hp]; rfl)
      have h₁ := h.done hst
      omega
  | commit_running _ hd | commit_pending _ hd | commit_failed _ hd =>
    have := (h.dispatching hd).2.1
    simp only at hr
    omega
  | notify_finished => exact ⟨by simp [(hrej hr).1, finishedState], (hrej hr).2⟩
  | shutdown => exact ⟨by simp [(hrej hr).1, shutdownState], rfl⟩
  | _ => exact hrej hr

theorem cancels_step (h : Valid s v) (hs : Step s v w) (hc : 0 < w.cancels) :
    w.state = some .canceled := by
  have hcan := h.cancels
  cases hs with
  | enqueue hn => simp [hcan hc] at hn
  | drop hn | dispatch hn => simp [hcan hc] at hn
  | cancel => rfl
  | cancel_scan hpos => exact hcan hpos
  | commit_canceled _ hst => exact hst
  | commit_running _ hd | commit_pending _ hd | commit_failed _ hd => simp [hcan hc] at hd
  | notify_finished => simp [hcan hc, finishedState]
  | shutdown hk =>
    simp only at hc ⊢
    rcases Nat.lt_or_ge 0 v.cancels with h₁ | h₁
    · simp [hcan h₁, shutdownState]
    · rcases hk.mp (by omega) with hst | hst | hst <;> simp [hst, shutdownState]
  | _ => exact hcan hc

theorem canceled_step (h : Valid s v) (hs : Step s v w) (hc : w.canceled = true) :
    w.state = some .canceled := by
  have hcan := h.canceled
  cases hs with
  | enqueue hn => simp [hcan hc] at hn
  | drop hn | dispatch hn => simp [hcan hc] at hn
  | cancel => rfl
  | cancel_scan hpos => exact h.cancels hpos
  | register => simp at hc
  | commit_running _ hd | commit_pending _ hd | commit_failed _ hd => simp [hcan hc] at hd
  | notify_finished => simp [hcan hc, finishedState]
  | shutdown => simp [hcan hc, shutdownState]
  | _ => exact hcan hc

theorem reaches_step (h : Valid s v) (hs : Step s v w) (hst : w.state = some .canceled)
    (ha : w.accepted = 1) (hr : w.registered = true) :
    w.canceled = true ∨ 0 < w.cancels ∨ w.phase ≠ .away := by
  have hrea := h.reaches
  cases hs with
  | enqueue | drop | dispatch | commit_running | commit_pending | commit_failed => simp at hst
  | cancel => exact .inr (.inl (by simp))
  | cancel_scan => exact .inl (by simpa using .inr hr)
  | start_failed | register | submit_root | accept | refuse_full | refuse_shutdown | full
  | store_failed | erase => exact .inr (.inr (by simp))
  | commit_canceled => exact .inr (.inl (by simp))
  | commit_canceled_refused hp =>
    rcases h.accepted ha with ha | ⟨_, ha⟩ <;> simp [hp] at ha
  | commit_other _ hne => exact absurd hst hne
  | notify_finished =>
    rcases finishedState_cases v.state with ⟨he, _⟩ | ⟨he, _⟩ <;> simp only [he] at hst
    · simp at hst
    · exact hrea hst ha hr
  | task_missing _ hreg => simp [hreg] at hr
  | task_zero | take_task => simp at hr
  | shutdown hk =>
    rcases shutdownState_cases v.state with ⟨_, hst⟩ | ⟨he, _⟩ | ⟨he, _, _, hne, _⟩
    · exact .inr (.inl (Nat.add_pos_right _ (hk.mpr hst)))
    · simp [he] at hst
    · simp [he, hne] at hst
  | _ => exact hrea hst ha hr

theorem Valid.step (h : Valid s v) (hs : Step s v w) : Valid s w where
  counter := counter_step h hs
  once := once_step h hs
  drain := drain_step h hs
  closing := closing_step h hs
  closing_eq := closing_eq_step h hs
  notified := notified_step h hs
  registry := registry_step h hs
  pool := pool_step h hs
  before := before_step h hs
  running := running_step h hs
  dispatching := dispatching_step h hs
  done := done_step h hs
  stopped := stopped_step h hs
  committing := committing_step h hs
  accepted := accepted_step h hs
  rejected := rejected_step h hs
  cancels := cancels_step h hs
  canceled := canceled_step h hs
  reaches := reaches_step h hs

end Life

end ScanDaemon
