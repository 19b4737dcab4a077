import ScanDaemon.Lifecycle.States

/-! # The wait for the last job

In the daemon `wait_to_finish` is a test that is repeated until it succeeds.
Here the caller takes `registry_mtx`, tests the predicate, and goes to sleep on
`manager_cv` in a step of its own; threads that call `notify_all` do so after
the step that makes them. Apart from that the threads run as before.
-/

namespace ScanDaemon

open Interleave

variable {cfg : Config} {tree : ScanId → FsNode} {σ σ' : Shared cfg} {x : Input} {f : Frame}
  {fs : List Frame} {s : ScanId} {maxScanId : ScanId}

/-- Where the main thread is in `wait_to_finish`. -/
inductive WaitPc
  /-- about to take the mutex and test the predicate -/
  | test
  /-- the predicate was false; the mutex is still held -/
  | tested
  /-- asleep on `manager_cv`, without the mutex -/
  | asleep
  deriving DecidableEq

structure WaitState (cfg : Config) where
  machine : DaemonState cfg
  wait : WaitPc
  /-- the threads that are about to call `manager_cv.notify_all` -/
  notifying : Thread cfg → Bool

/-- The step takes `registry_mtx`. -/
def Frame.locksRegistry (x : Input) : Frame → Bool
  | .cancelScan _ | .run (.erase _) | .finish _ (.takeTask _ _) => true
  | .run (.start _) => !x.throws
  | _ => false

/-- The step is followed by `manager_cv.notify_all`. -/
def Frame.notifiesAll (σ : Shared cfg) : Frame → Bool
  | .finish id .decrement => decide ((σ.manager.context id).unfinishedJobs = 1)
  | .cancelScan id => (σ.manager.registry.lookup id).isSome
  | _ => false

/-- The scan that the main thread waits for. -/
def Frame.waitsFor : Frame → Option ScanId
  | .main (.waitLoop (id :: _)) => some id
  | _ => none

/-- The scan that the caller of `wait_to_finish` waits for. -/
def WaitState.head (w : WaitState cfg) : Option ScanId :=
  (w.machine.top .main).bind Frame.waitsFor

/-- A step of the daemon, after which the thread may have to notify. -/
def WaitState.advance (tree : ScanId → FsNode) (w : WaitState cfg) (a : Thread cfg × Input) :
    Option (WaitState cfg) :=
  (w.machine.step (exec tree) a.1 a.2).map fun m => { w with
    machine := m
    notifying := Function.update w.notifying a.1
      ((w.machine.top a.1).any fun f => f.notifiesAll w.machine.shared) }

/-- `manager_cv.notify_all` -/
def WaitState.notifyAll (w : WaitState cfg) (t : Thread cfg) : WaitState cfg :=
  { w with
    notifying := Function.update w.notifying t false
    wait := if w.wait = .asleep then .test else w.wait }

def WaitState.step (tree : ScanId → FsNode) (w : WaitState cfg) (a : Thread cfg × Input) :
    Option (WaitState cfg) :=
  if w.notifying a.1 then some (w.notifyAll a.1)
  else if a.1 = .main then match w.wait with
    | .test =>
      if w.head.any fun id => !w.machine.shared.manager.isFinished id then
        some { w with wait := .tested }
      else w.advance tree a
    | .tested => some { w with wait := .asleep }
    | .asleep => none
  else if w.wait = .tested ∧ (w.machine.top a.1).any (Frame.locksRegistry a.2) then none
  else w.advance tree a

/-- The daemon with the condition variable of the manager. -/
def waitingDaemon (cfg : Config) (tree : ScanId → FsNode) (maxScanId : ScanId) :
    System (WaitState cfg) (Thread cfg × Input) where
  init := ⟨(daemon cfg tree maxScanId).init, .test, fun _ => false⟩
  step := WaitState.step tree

variable {w w' : WaitState cfg} {a : Thread cfg × Input} {t : Thread cfg}

/-! ## The steps -/

/-- What a step of the daemon with the condition variable is. -/
inductive WaitState.Move (tree : ScanId → FsNode) (w : WaitState cfg) (a : Thread cfg × Input) :
    WaitState cfg → Prop
  | notify : w.notifying a.1 = true → Move tree w a (w.notifyAll a.1)
  | tested {id : ScanId} : a.1 = .main → w.wait = .test → w.head = some id →
      w.machine.shared.manager.isFinished id = false → Move tree w a { w with wait := .tested }
  | sleep : a.1 = .main → w.wait = .tested → Move tree w a { w with wait := .asleep }
  | main {w' : WaitState cfg} : a.1 = .main → w.wait = .test → w.advance tree a = some w' →
      Move tree w a w'
  | other {w' : WaitState cfg} : a.1 ≠ .main → w.notifying a.1 = false →
      (w.wait = .tested → ∀ f ∈ w.machine.top a.1, f.locksRegistry a.2 = false) →
      w.advance tree a = some w' → Move tree w a w'

theorem WaitState.move_of_step (h : w.step tree a = some w') : w.Move tree a w' := by
  unfold step at h
  split at h
  · next hn => cases h; exact .notify hn
  next hn =>
  split at h
  · next hm =>
    split at h
    · next hw =>
      split at h
      · next hh =>
        cases h
        obtain ⟨id, hid, hf⟩ := (Option.any_eq_true _ _).mp hh
        exact .tested hm hw hid (by simpa using hf)
      · exact .main hm hw h
    · next hw => cases h; exact .sleep hm hw
    · cases h
  next hm =>
  split at h
  · cases h
  · next hl =>
    refine .other hm (by simpa using hn) (fun hw f hf => ?_) h
    by_contra hne
    exact hl ⟨hw, (Option.any_eq_true _ _).mpr ⟨f, hf, by simpa using hne⟩⟩

theorem WaitState.advance_eq_some (maxScanId : ScanId) (h : w.advance tree a = some w') :
    (daemon cfg tree maxScanId).step w.machine a = some w'.machine ∧ w'.wait = w.wait ∧
      w'.notifying = Function.update w.notifying a.1
        ((w.machine.top a.1).any fun f => f.notifiesAll w.machine.shared) := by
  obtain ⟨m, hm, rfl⟩ := Option.map_eq_some_iff.mp h
  exact ⟨hm, rfl, rfl⟩

/-- The threads and the memory run as they do in the daemon. -/
theorem daemon_reachable {ok : WaitState cfg → Thread cfg × Input → Prop}
    (h : (waitingDaemon cfg tree maxScanId).Reach ok w) :
    (daemon cfg tree maxScanId).Reachable w.machine := by
  refine h.project (g := WaitState.machine) rfl fun w a w' hs => ?_
  cases WaitState.move_of_step hs with
  | notify | tested | sleep => exact .inl rfl
  | main _ _ ha | other _ _ _ ha => exact .inr ⟨a, (WaitState.advance_eq_some maxScanId ha).1⟩

/-! ## When the predicate comes true -/

theorem Life.Valid.unfinished_of_taking {v : Life} (h : v.Valid s) (ht : 0 < v.taking) :
    v.unfinished = 0 := by
  have h₁ := h.counter
  have h₂ := h.closing
  have h₃ := h.drain
  have h₄ := h.once
  have h₅ : v.phase.counted ≤ v.phase.early := by
    cases v.phase with
    | commit a q => simp [Phase.counted]
    | _ => simp [Phase.counted, Phase.early]
  split_ifs at h₃ <;> omega

theorem unfinished_of_locks {m : DaemonState cfg} (h : (daemon cfg tree maxScanId).Reachable m)
    (hf : f ∈ m.frames) (hl : (∃ t c, f = .finish s (.takeTask t c)) ∨
      ∃ data : PendingRoot, f = .run (.erase data) ∧ data.scanId = s) :
    m.shared.manager.isFinished s = true := by
  have hsound := sound_of_reachable h
  have hv := hsound.valid s
  have hzero : (life s m).unfinished = 0 := by
    rcases hl with ⟨t, c, rfl⟩ | ⟨data, rfl, rfl⟩
    · refine hv.unfinished_of_taking (Nat.lt_of_lt_of_le ?_ (le_weigh hf))
      simp
    · have hp : (life data.scanId m).phase = .erase := by
        simp [life, lifeOf, hsound.runPhase_eq hf]
      have hjobs := (hv.of_early (by rw [hp]; rfl)).2.2.2
      have hc := hv.counter
      simpa [hp, hjobs, Phase.counted] using hc
  have hu : (m.shared.manager.context s).unfinishedJobs = 0 := hzero
  simp [Manager.isFinished, hu]

theorem isFinished_eq_false {mg : Manager cfg} : mg.isFinished s = false ↔
    (mg.registry.lookup s).isSome = true ∧ (mg.context s).unfinishedJobs ≠ 0 := by
  simp [Manager.isFinished, Option.isSome_iff_ne_none]

/-- The predicate of a scan depends on its entry and its counter only. -/
theorem isFinished_congr {mg mg' : Manager cfg}
    (hr : mg'.registry.lookup s = mg.registry.lookup s)
    (hc : (mg'.context s).unfinishedJobs = (mg.context s).unfinishedJobs) :
    mg'.isFinished s = mg.isFinished s := by
  simp only [Manager.isFinished, hr, hc]

/-- The predicate of a scan comes true when its counter is lowered from 1, unless the scan
leaves the registry. -/
theorem Step.finishes (hs : Step tree σ x f σ' fs) (h : σ.manager.isFinished s = false)
    (h' : σ'.manager.isFinished s = true) (hpos : 0 ≤ (σ.manager.context s).unfinishedJobs) :
    (f = .finish s .decrement ∧ (σ.manager.context s).unfinishedJobs = 1) ∨
    (∃ data : PendingRoot, f = .run (.full data) ∧ data.scanId = s) ∨
    (∃ t c, f = .finish s (.takeTask t c)) ∨
    ∃ data : PendingRoot, f = .run (.erase data) ∧ data.scanId = s := by
  have hkeep : σ'.manager.registry.lookup s = σ.manager.registry.lookup s →
      (σ'.manager.context s).unfinishedJobs = (σ.manager.context s).unfinishedJobs → False := by
    intro hr hc
    rw [isFinished_congr hr hc, h] at h'
    cases h'
  obtain ⟨hreg, hne⟩ := isFinished_eq_false.mp h
  have hadd : ∀ id, (σ.manager.addUnfinished id).isFinished s = false := by
    intro id
    refine isFinished_eq_false.mpr ⟨hreg, ?_⟩
    simp only [Manager.addUnfinished_context, Function.update_apply]
    split_ifs with hid
    · subst hid
      simp only
      omega
    · exact hne
  cases hs with
  | cancelScan =>
    refine (hkeep (by simp) ?_).elim
    simp only [Shared.withManager_manager, Manager.cancelScan]
    split
    · rfl
    · rw [Manager.context_setContext_apply]
      split_ifs with hid
      · rw [hid]
      · rfl
  | run hs =>
    cases hs with
    | @register data hn =>
      by_cases hid : s = data.scanId
      · rw [hid, hn] at hreg
        cases hreg
      · exact (hkeep (by simp [hid]) (by simp [hid])).elim
    | submit => exact absurd (h'.symm.trans (hadd _)) (by simp)
    | @full data =>
      by_cases hid : data.scanId = s
      · exact .inr (.inl ⟨data, rfl, hid⟩)
      · exact (hkeep rfl (by simp [Ne.symm hid])).elim
    | @erase data =>
      by_cases hid : data.scanId = s
      · exact .inr (.inr (.inr ⟨data, rfl, hid⟩))
      · exact (hkeep (by simp [Ne.symm hid]) rfl).elim
    | _ => exact (hkeep rfl rfl).elim
  | @finish id pc _ _ hs =>
    cases hs with
    | drain hu =>
      by_cases hid : id = s
      · subst hid
        exact .inl ⟨rfl, hu⟩
      · exact (hkeep rfl (by simp [Ne.symm hid])).elim
    | decrement hu =>
      refine absurd h' ?_
      rw [Bool.not_eq_true, isFinished_eq_false]
      refine ⟨hreg, ?_⟩
      simp only [Shared.withManager_manager, Manager.subUnfinished_context, Function.update_apply]
      split_ifs with hid
      · subst hid
        simp only
        omega
      · exact hne
    | @task_zero t c _ | @take_task t c _ _ _ =>
      by_cases hid : id = s
      · subst hid
        exact .inr (.inr (.inl ⟨t, c, rfl⟩))
      · exact (hkeep (by simp [Ne.symm hid]) rfl).elim
    | _ => exact (hkeep rfl rfl).elim
  | workerJob hs =>
    cases hs with
    | submit => exact absurd (h'.symm.trans (hadd _)) (by simp)
    | _ => exact (hkeep rfl rfl).elim
  | http hs | workForever hs | result hs | main hs => cases hs <;> exact (hkeep rfl rfl).elim

/-! ## No wake-up is lost -/

/-- The step takes the counter of `id` to 0 in `task_on_job_finish`. -/
def Frame.Drains (σ : Shared cfg) (id : ScanId) : Frame → Prop
  | .finish s .decrement => s = id ∧ (σ.manager.context s).unfinishedJobs = 1
  | _ => False

instance (σ : Shared cfg) (id : ScanId) (f : Frame) : Decidable (f.Drains σ id) := by
  unfold Frame.Drains
  split <;> infer_instance

/-- The step lowers the counter of `id` on the full path of `start_new_scan`. -/
def Frame.RollsBack (id : ScanId) : Frame → Prop
  | .run (.full data) => data.scanId = id
  | _ => False

instance (id : ScanId) (f : Frame) : Decidable (f.RollsBack id) := by
  unfold Frame.RollsBack
  split <;> infer_instance

/-- The counter of the scan that is waited for is not taken to 0 between the test of the predicate
and the sleep, and not lowered by the full path of `start_new_scan` before the caller is awake. -/
def Announced (w : WaitState cfg) (a : Thread cfg × Input) : Prop :=
  w.notifying a.1 = false → ∀ id ∈ w.head, ∀ f ∈ w.machine.top a.1,
    (w.wait = .tested → ¬f.Drains w.machine.shared id) ∧ (w.wait ≠ .test → ¬f.RollsBack id)

instance (w : WaitState cfg) (a : Thread cfg × Input) : Decidable (Announced w a) :=
  inferInstanceAs (Decidable (_ → ∀ id ∈ w.head, ∀ f ∈ w.machine.top a.1, (_ → _) ∧ (_ → _)))

/-- A caller that sleeps, or is about to, waits for a false predicate or for a notification. -/
structure Waits (w : WaitState cfg) : Prop where
  tested : w.wait = .tested →
    ∃ id ∈ w.head, w.machine.shared.manager.isFinished id = false
  asleep : w.wait = .asleep → ∃ id ∈ w.head,
    w.machine.shared.manager.isFinished id = true → ∃ t, w.notifying t = true

/-- The main thread stays where it is while another thread takes a step. -/
theorem WaitState.head_advance (ha : w.advance tree a = some w') (hm : a.1 ≠ .main) :
    w'.head = w.head := by
  obtain ⟨hs, -⟩ := WaitState.advance_eq_some 0 ha
  obtain ⟨f, rest, fs, R, -, -, hst, -⟩ := daemon_step hs
  simp only [head, Machine.top, hst, Function.update_of_ne (Ne.symm hm)]

theorem Waits.step (h : (daemon cfg tree maxScanId).Reachable w.machine) (hw : Waits w)
    (hs : w.step tree a = some w') (hok : Announced w a) : Waits w' := by
  cases WaitState.move_of_step hs with
  | notify hn =>
    refine ⟨fun ht => ?_, fun ha => ?_⟩
    · have ht' : w.wait = .tested := by
        simp only [WaitState.notifyAll] at ht
        split_ifs at ht with hc
        exact ht
      exact hw.tested ht'
    · simp only [WaitState.notifyAll] at ha
      split_ifs at ha with hc
      exact absurd ha hc
  | tested _ ht hid hf => exact ⟨fun _ => ⟨_, hid, hf⟩, by simp⟩
  | sleep _ ht =>
    obtain ⟨id, hid, hf⟩ := hw.tested ht
    exact ⟨by simp, fun _ => ⟨id, hid, fun hf' => absurd (hf.symm.trans hf') (by simp)⟩⟩
  | main _ ht ha =>
    obtain ⟨-, hwait, -⟩ := WaitState.advance_eq_some maxScanId ha
    rw [ht] at hwait
    exact ⟨by simp [hwait], by simp [hwait]⟩
  | other hm hn hl ha =>
    obtain ⟨hstep, hwait, hnot⟩ := WaitState.advance_eq_some maxScanId ha
    have hhead := WaitState.head_advance ha hm
    obtain ⟨f, rest, fs, R, hf, hst, -, hF, -⟩ := daemon_step hstep
    have htop := Machine.top_of_stack hf
    have hmem : f ∈ w.machine.frames := hF ▸ Multiset.mem_cons_self _ _
    -- what can make the predicate come true, and what the step does then
    have hcome : ∀ id, w.machine.shared.manager.isFinished id = false →
        w'.machine.shared.manager.isFinished id = true →
        (f = .finish id .decrement ∧
          (w.machine.shared.manager.context id).unfinishedJobs = 1) ∨
        ∃ data : PendingRoot, f = .run (.full data) ∧ data.scanId = id := by
      intro id hfalse htrue
      have hv := ((sound_of_reachable h).valid id).counter
      have hpos : 0 ≤ (w.machine.shared.manager.context id).unfinishedJobs := by
        have he : (life id w.machine).unfinished =
          (w.machine.shared.manager.context id).unfinishedJobs := rfl
        omega
      rcases hst.finishes hfalse htrue hpos with hd | hd | hd | hd
      · exact .inl hd
      · exact .inr hd
      · exact absurd (hfalse.symm.trans (unfinished_of_locks h hmem (.inl hd))) (by simp)
      · exact absurd (hfalse.symm.trans (unfinished_of_locks h hmem (.inr hd))) (by simp)
    refine ⟨fun ht => ?_, fun hsl => ?_⟩
    · rw [hwait] at ht
      obtain ⟨id, hid, hfalse⟩ := hw.tested ht
      refine ⟨id, hhead ▸ hid, ?_⟩
      by_contra htrue
      obtain ⟨h₁, h₂⟩ := hok hn id hid f htop
      rcases hcome id hfalse (by simpa using htrue) with ⟨rfl, hone⟩ | ⟨data, rfl, hdata⟩
      · exact h₁ ht ⟨rfl, hone⟩
      · exact h₂ (by simp [ht]) hdata
    · rw [hwait] at hsl
      obtain ⟨id, hid, hpend⟩ := hw.asleep hsl
      refine ⟨id, hhead ▸ hid, fun htrue => ?_⟩
      cases hfin : w.machine.shared.manager.isFinished id with
      | true =>
        obtain ⟨t, ht⟩ := hpend hfin
        have hne : t ≠ a.1 := by
          rintro rfl
          rw [hn] at ht
          cases ht
        exact ⟨t, by rw [hnot, Function.update_of_ne hne]; exact ht⟩
      | false =>
        rcases hcome id hfin htrue with ⟨rfl, hone⟩ | ⟨data, rfl, hdata⟩
        · exact ⟨a.1, by simp [hnot, htop, Frame.notifiesAll, hone]⟩
        · exact absurd hdata ((hok hn id hid _ htop).2 (by simp [hsl]))

/-- In the runs in which the counter is not lowered unannounced, a caller of `wait_to_finish` that
is asleep while its predicate is true is about to be notified. -/
theorem wait_not_lost (h : (waitingDaemon cfg tree maxScanId).Reach Announced w)
    (hw : w.wait = .asleep) : ∃ id ∈ w.head,
      w.machine.shared.manager.isFinished id = true → ∃ t, w.notifying t = true := by
  have hwaits : Waits w := by
    refine h.invariant ⟨?_, ?_⟩ fun n a n' hn hok hs hw =>
      hw.step (daemon_reachable hn) hs hok
    · simp [waitingDaemon]
    · simp [waitingDaemon]
  exact hwaits.asleep hw

/-- A scan of one file whose job is done but not counted down yet, while the main thread has tested
the predicate of `wait_to_finish`. -/
def testedRun : List (Thread (smallConfig 1 1 1) × Input) :=
  serve (.submit ['/', 'a']) 2 ++ steps 5 .run ++ steps 4 (.worker ⟨0, Nat.one_pos⟩) ++
    steps 6 .main

/-- The worker takes the counter to 0 while the caller sleeps, and is about to notify it. -/
theorem wait_not_lost_asleep :
    let w := (waitingDaemon (smallConfig 1 1 1) (fun _ => .file 0 0) 0).run
      (testedRun ++ steps 1 .main ++ steps 1 (.worker ⟨0, Nat.one_pos⟩))
    w.wait = .asleep ∧ w.machine.shared.manager.isFinished 1 = true ∧
      ∃ id ∈ w.head, w.machine.shared.manager.isFinished id = true → ∃ t, w.notifying t = true :=
  ⟨by decide +kernel, by decide +kernel,
    wait_not_lost (System.reach_run (by decide +kernel)) (by decide +kernel)⟩

/-- The worker takes the counter to 0 and notifies between the test and the sleep. Then everything
else comes to an end, and the caller sleeps although its predicate is true. -/
theorem wait_lost :
    let D := waitingDaemon (smallConfig 1 1 1) (fun _ => .file 0 0) 0
    ∃ w, D.Reachable w ∧ w.wait = .asleep ∧ w.head = some 1 ∧
      w.machine.shared.manager.isFinished 1 = true ∧ (∀ t, w.notifying t = false) ∧
      ∀ t now throws, D.step w (t, ⟨none, now, throws⟩) = none := by
  refine ⟨_, System.reachable_run _ (testedRun ++ steps 2 (.worker ⟨0, Nat.one_pos⟩) ++
    steps 1 .main ++ steps 7 (.worker ⟨0, Nat.one_pos⟩) ++ steps 5 .result ++ steps 1 .run),
    by decide +kernel, by decide +kernel, by decide +kernel, by decide +kernel, ?_⟩
  intro t now throws
  cases t with
  | http i =>
    obtain rfl : i = ⟨0, Nat.one_pos⟩ := Fin.ext (Nat.lt_one_iff.mp i.isLt)
    rfl
  | run => rfl
  | worker i =>
    obtain rfl : i = ⟨0, Nat.one_pos⟩ := Fin.ext (Nat.lt_one_iff.mp i.isLt)
    rfl
  | result => rfl
  | main => rfl

end ScanDaemon
