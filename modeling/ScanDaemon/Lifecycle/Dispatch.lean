import ScanDaemon.Lifecycle.Refinement

/-! # The handshake of a full queue

A full scan queue makes `run` wait for `notify_dispatch_available`, which a
worker calls when it finds `dispatch_failed` set after a job. `run` sets the two
flags one after the other, so a worker may come in between.
-/

namespace ScanDaemon

open Interleave

variable {cfg : Config} {tree : ScanId → FsNode} {σ σ' : Shared cfg} {x : Input} {f : Frame}
  {fs : List Frame} {R : Multiset Frame} {maxScanId : ScanId} {m m' : DaemonState cfg}
  {a : Thread cfg × Input}

/-- Counts the jobs in hand that have not passed the test of `dispatch_failed`. -/
@[simp] def testWeight : Frame → ℕ
  | .workerJob _ _ => 1
  | .finish _ pc => match pc with
    | .notifyDispatch | .gauge => 0
    | .decrement | .notifyFinished _ | .readCanceled _ | .takeTask _ _ | .pushSentinel _ _
    | .insertRow _ | .exchange => 1
  | _ => 0

/-- Counts the calls of `notify_dispatch_available` under way. -/
@[simp] def notificationWeight : Frame → ℕ
  | .finish _ .notifyDispatch => 1
  | _ => 0

/-- The jobs of the pool that will still test `dispatch_failed`. -/
def jobsToTest (σ : Shared cfg) (F : Multiset Frame) : ℕ :=
  weigh testWeight F + σ.manager.scanPool.jobQueue.container.length

/-- The calls of `notify_dispatch_available` under way. -/
def notifications (F : Multiset Frame) : ℕ := weigh notificationWeight F

/-- `run` has been refused and has not set `dispatch_failed` yet. -/
def RunPc.Refused : RunPc → Prop
  | .full _ | .storeFailed _ => True
  | _ => False

/-- `run` has set `dispatch_failed` and not yet `manager_queue_full`. -/
def RunPc.Failing : RunPc → Prop
  | .erase _ | .commit _ false true => True
  | _ => False

instance : (pc : RunPc) → Decidable pc.Refused
  | .full _ | .storeFailed _ => .isTrue trivial
  | .head | .start _ | .submit _ | .push _ | .erase _ | .commit _ _ _ => .isFalse id

instance : (pc : RunPc) → Decidable pc.Failing
  | .erase _ | .commit _ false true => .isTrue trivial
  | .head | .start _ | .submit _ | .push _ | .full _ | .storeFailed _ | .commit _ true _
  | .commit _ false false => .isFalse id

/-- The frame tests `dispatch_failed` next. -/
def Frame.Tests (f : Frame) : Prop := f.stage = some .exchange

/-- The frame calls `notify_dispatch_available` next. -/
def Frame.Notifies (f : Frame) : Prop := f.stage = some .notifyDispatch

instance (f : Frame) : Decidable f.Tests := inferInstanceAs (Decidable (f.stage = _))

instance (f : Frame) : Decidable f.Notifies := inferInstanceAs (Decidable (f.stage = _))

/-- The step does not let a worker pass between the answer `Full` and the two flags: the last
job does not test `dispatch_failed` before it is set, and no notification that consumed it is
delivered before `manager_queue_full` is set. -/
def NotifiesInTime (m : DaemonState cfg) (a : Thread cfg × Input) : Prop :=
  ∀ f ∈ m.top a.1, ∀ pc ∈ runPc (m.stack .run),
    (f.Tests → pc.Refused → 1 < jobsToTest m.shared m.frames) ∧
    (f.Notifies → pc.Failing → m.shared.manager.dispatchFailed = true)

/-- What keeps `run` from waiting for ever. -/
structure Woken (σ : Shared cfg) (F : Multiset Frame) (pc : Option RunPc) : Prop where
  failed : σ.manager.dispatchFailed = true → 0 < jobsToTest σ F
  refused : ∀ p ∈ pc, p.Refused → 0 < jobsToTest σ F
  notified : (∃ p ∈ pc, p.Failing) ∨ σ.scheduler.managerQueueFull = true →
    σ.manager.dispatchFailed = true ∨ 0 < weigh notificationWeight F

/-- Only a test of `dispatch_failed` lowers the number of tests to come. -/
theorem Step.jobsToTest_le (hs : Step tree σ x f σ' fs) (hf : ¬f.Tests) :
    jobsToTest σ (f ::ₘ R) ≤ jobsToTest σ' ((fs : Multiset Frame) + R) := by
  unfold jobsToTest
  cases hs with
  | http hs => cases hs <;> simp
  | cancelScan => simp
  | run hs => cases hs <;> simp
  | workForever hs =>
    cases hs with
    | exit => simp
    | take hc => simp [hc]; omega
  | workerJob hs => cases hs <;> simp
  | finish hs =>
    cases hs with
    | exchange_set | exchange_clear => exact absurd rfl hf
    | _ => simp
  | result hs => cases hs <;> simp
  | main hs => cases hs <;> simp

theorem Woken.mono {F F' : Multiset Frame} {pc : Option RunPc} (h : Woken σ F pc)
    (hd : σ'.manager.dispatchFailed = σ.manager.dispatchFailed)
    (hq : σ'.scheduler.managerQueueFull = σ.scheduler.managerQueueFull)
    (hw : jobsToTest σ F ≤ jobsToTest σ' F')
    (hn : weigh notificationWeight F ≤ weigh notificationWeight F') : Woken σ' F' pc where
  failed hf := (h.failed (hd ▸ hf)).trans_le hw
  refused p hp hr := (h.refused p hp hr).trans_le hw
  notified hf := by
    rw [hd]
    rw [hq] at hf
    exact (h.notified hf).imp_right fun hpos => hpos.trans_le hn

theorem Step.notifications_le (hs : Step tree σ x f σ' fs) (hf : ¬f.Notifies) :
    weigh notificationWeight (f ::ₘ R) ≤ weigh notificationWeight ((fs : Multiset Frame) + R) := by
  cases hs with
  | cancelScan => simp
  | finish hs =>
    cases hs with
    | notify_dispatch => exact absurd rfl hf
    | _ => simp
  | http hs | run hs | workForever hs | workerJob hs | result hs | main hs => cases hs <;> simp

/-- The flags change at the test, at the notification and in the loop of `run` only. -/
theorem Step.flags_eq (hs : Step tree σ x f σ' fs) (hf : ¬f.Tests) (hn : ¬f.Notifies)
    (hr : ∀ pc, f ≠ .run pc) :
    σ'.manager.dispatchFailed = σ.manager.dispatchFailed ∧
      σ'.scheduler.managerQueueFull = σ.scheduler.managerQueueFull := by
  cases hs with
  | run => exact absurd rfl (hr _)
  | cancelScan => exact ⟨Manager.dispatchFailed_cancelScan, rfl⟩
  | finish hs =>
    cases hs with
    | notify_dispatch => exact absurd rfl hn
    | exchange_set | exchange_clear => exact absurd rfl hf
    | notify_finished => exact ⟨rfl, Scheduler.managerQueueFull_notifyScanFinished⟩
    | _ => exact ⟨rfl, rfl⟩
  | http hs | workForever hs | workerJob hs | result hs | main hs =>
    cases hs <;> exact ⟨rfl, rfl⟩

theorem Woken.step {pc : Option RunPc} (h : Woken σ (f ::ₘ R) pc) (hs : Step tree σ x f σ' fs)
    (hr : ∀ pc, f ≠ .run pc)
    (hok : ∀ p ∈ pc, (f.Tests → p.Refused → 1 < jobsToTest σ (f ::ₘ R)) ∧
      (f.Notifies → p.Failing → σ.manager.dispatchFailed = true)) :
    Woken σ' ((fs : Multiset Frame) + R) pc := by
  by_cases ht : f.Tests
  · cases hs with
    | finish hs =>
      cases hs with
      | exchange_set hd =>
        refine ⟨by simp, fun p hp hr => ?_, fun _ => .inr (by simp)⟩
        have hone := (hok p hp).1 rfl hr
        simp [jobsToTest] at hone ⊢
        omega
      | exchange_clear hd =>
        refine ⟨by simp [hd], fun p hp hr => ?_, fun hf => ?_⟩
        · have hone := (hok p hp).1 rfl hr
          simp [jobsToTest] at hone ⊢
          omega
        · simpa using h.notified hf
      | _ => cases ht
    | _ => cases ht
  by_cases hn : f.Notifies
  · cases hs with
    | finish hs =>
      cases hs with
      | notify_dispatch =>
        refine ⟨?_, ?_, ?_⟩
        · simpa [jobsToTest] using h.failed
        · simpa [jobsToTest] using h.refused
        · rintro (⟨p, hp, hf⟩ | hf)
          · exact .inl ((hok p hp).2 rfl hf)
          · simp at hf
      | _ => cases hn
    | _ => cases hn
  obtain ⟨hd, hq⟩ := hs.flags_eq ht hn hr
  exact h.mono hd hq (hs.jobsToTest_le ht) (hs.notifications_le hn)

/-- `run` waits for a notification only when a job in the pool is going to give it. -/
theorem Woken.step_run {pc : RunPc} (h : Woken σ (.run pc ::ₘ R) (some pc))
    (hs : RunStep tree σ x pc σ' fs) (hcap : 0 < cfg.scanQueueMaxSize) :
    Woken σ' ((fs : Multiset Frame) + R) (runPc fs) := by
  have hw := (Step.run hs).jobsToTest_le (R := R) (by simp [Frame.Tests, Frame.stage])
  obtain ⟨h₁, h₂, h₃⟩ := h
  cases hs with
  | refuse_full _ hfull =>
    refine ⟨by simpa [jobsToTest] using h₁, ?_, ?_⟩
    · simp [jobsToTest, runPc]; omega
    · simpa [RunPc.Failing, runPc] using h₃
  | @full data =>
    refine ⟨by simpa [jobsToTest] using h₁, fun _ _ _ => ?_, ?_⟩
    · simpa [jobsToTest] using h₂ _ rfl trivial
    · simpa [RunPc.Failing, runPc] using h₃
  | @store_failed data =>
    refine ⟨fun _ => ?_, by simp [RunPc.Refused, runPc], fun _ => .inl rfl⟩
    simpa [jobsToTest] using h₂ _ rfl trivial
  | @erase data =>
    refine ⟨by simpa [jobsToTest] using h₁, by simp [RunPc.Refused, runPc], fun _ => ?_⟩
    simpa using h₃ (.inl ⟨_, rfl, trivial⟩)
  | @commit_pending data =>
    refine ⟨by simpa [jobsToTest] using h₁, by simp [RunPc.Refused, runPc], fun _ => ?_⟩
    simpa using h₃ (.inl ⟨_, rfl, trivial⟩)
  | _ =>
    refine ⟨fun hd => (h₁ hd).trans_le hw, by simp [RunPc.Refused, runPc], fun hf => ?_⟩
    simpa using h₃ (.inr (by simpa [RunPc.Failing, runPc] using hf))

/-- In the runs that meet the condition, when `run` waits because `manager_queue_full` is
true, `dispatch_failed` is true and a job of the pool is going to test it, or a call of
`notify_dispatch_available` is under way. -/
theorem dispatch_notified (hcap : 0 < cfg.scanQueueMaxSize)
    (h : (daemon cfg tree maxScanId).Reach NotifiesInTime m)
    (hfull : m.shared.scheduler.managerQueueFull = true) :
    (m.shared.manager.dispatchFailed = true ∧ 0 < jobsToTest m.shared m.frames) ∨
      0 < notifications m.frames := by
  have hw : Woken m.shared m.frames (runPc (m.stack .run)) := by
    refine h.invariant (P := fun m => Woken m.shared m.frames (runPc (m.stack .run))) ?_
      fun n a n' hn hok hs hw => ?_
    · refine ⟨by simp [daemon, Shared.new, Manager.new], ?_, ?_⟩
      · simp [daemon, initialStack, runPc, RunPc.Refused]
      · simp [daemon, initialStack, runPc, RunPc.Failing, Shared.new, Scheduler.new]
    · rcases (sound_of_reachable hn.reachable).step_cases hs with
        ⟨pc, fs, R, hr, hst, hr', hF, hF', -⟩ | ⟨f, rest, fs, R, hf, -, hst, hne, hpc, hF, hF'⟩
      · rw [hr, hF] at hw
        rw [hr', hF']
        exact hw.step_run hst hcap
      · rw [hpc, hF']
        rw [hF] at hw
        refine hw.step hst hne fun p hp => ?_
        rw [← hF]
        exact hok f (Machine.top_of_stack hf) p hp
  exact (hw.notified (.inr hfull)).imp_left fun hd => ⟨hd, hw.failed hd⟩

instance (m : DaemonState cfg) (a : Thread cfg × Input) : Decidable (NotifiesInTime m a) :=
  inferInstanceAs (Decidable (∀ f ∈ m.top a.1, ∀ pc ∈ runPc (m.stack .run), _ ∧ _))

/-- A second scan is refused while the only job of the pool is still queued. -/
theorem dispatch_notified_refused :
    let m := (daemon (smallConfig 2 1 1) (fun _ => .file 0 0) 0).run
      (serve (.submit ['/', 'a']) 2 ++ serve (.submit ['/', 'b']) 2 ++ steps 13 .run)
    m.shared.scheduler.managerQueueFull = true ∧
      ((m.shared.manager.dispatchFailed = true ∧ 0 < jobsToTest m.shared m.frames) ∨
        0 < notifications m.frames) :=
  ⟨by decide, dispatch_notified (by decide) (System.reach_run (by decide +kernel)) (by decide)⟩

/-- The last job of the pool passes between the answer `Full` and `dispatch_failed`; or its
notification arrives before `manager_queue_full` is set. Then `run` waits for ever. -/
theorem dispatch_lost :
    let D := daemon (smallConfig 2 1 1) (fun _ => .file 0 0) 0
    (∃ m, D.Reachable m ∧ m.shared.scheduler.managerQueueFull = true ∧
      jobsToTest m.shared m.frames = 0 ∧ notifications m.frames = 0) ∧
    ∃ m, D.Reachable m ∧ m.shared.scheduler.managerQueueFull = true ∧
      m.shared.manager.dispatchFailed = false ∧ notifications m.frames = 0 :=
  ⟨⟨_, System.reachable_run _ (serve (.submit ['/', 'a']) 2 ++ serve (.submit ['/', 'b']) 2 ++
      steps 9 .run ++ steps 12 (.worker ⟨0, Nat.one_pos⟩) ++ steps 4 .run),
      by decide, by decide, by decide⟩,
    ⟨_, System.reachable_run _ (serve (.submit ['/', 'a']) 2 ++ serve (.submit ['/', 'b']) 2 ++
      steps 11 .run ++ steps 13 (.worker ⟨0, Nat.one_pos⟩) ++ steps 2 .run),
      by decide, by decide, by decide⟩⟩

end ScanDaemon
