import ScanDaemon.Lifecycle.Running

/-! # The gauge at the end

`notify_scan_finished` lowers `running_scans` for every canceled scan, also for
one that `run` has not counted yet. When that does not happen the counter never
goes below 0, and it is 0 once shutdown and `run` are over.
-/

namespace ScanDaemon

open Interleave

variable {cfg : Config} {tree : ScanId → FsNode} {σ σ' : Shared cfg} {x : Input} {f : Frame}
  {fs rest : List Frame} {s : ScanId} {maxScanId : ScanId} {m m' : DaemonState cfg}
  {a : Thread cfg × Input}

/-- The scan for which a frame calls `notify_scan_finished` next. -/
def Frame.notifies : Frame → Option ScanId
  | .finish s (.notifyFinished _) => some s
  | _ => none

/-- The step does not notify a canceled scan whose dispatch `run` has not committed. -/
def NotifiesCommitted (m : DaemonState cfg) (a : Thread cfg × Input) : Prop :=
  ∀ f ∈ m.top a.1, ∀ s ∈ f.notifies, m.shared.scheduler.state s = some .canceled →
    ∀ data ∈ runData (m.stack .run), data.scanId ≠ s

instance (m : DaemonState cfg) (a : Thread cfg × Input) : Decidable (NotifiesCommitted m a) :=
  inferInstanceAs (Decidable (∀ f ∈ m.top a.1, ∀ s ∈ f.notifies, _ → _))

/-- A call of `task_on_job_finish` is made by a worker or for the scan `run` dispatches. -/
theorem Shape.finish {i : Thread cfg} {pc : FinishPc} (h : Shape i (.finish s pc :: rest)) :
    (∃ j, i = .worker j) ∨ i = .run ∧ ∃ data ∈ runData (.finish s pc :: rest), data.scanId = s := by
  cases i with
  | http _ => exact (h (.finish s pc) List.mem_cons_self).elim
  | run =>
    cases h with
    | refused data pc => exact .inr ⟨rfl, data, rfl, rfl⟩
  | worker j => exact .inl ⟨j, rfl⟩
  | result => cases h
  | main => cases h

theorem notifying_pos {i : Thread cfg} {t : ℕ}
    (hf : m.stack i = .finish s (.notifyFinished t) :: rest) : 0 < (life s m).notifying := by
  have hmem : .finish s (.notifyFinished t) ∈ m.frames :=
    Machine.mem_frames.mpr ⟨i, hf ▸ List.mem_cons_self⟩
  refine Nat.lt_of_lt_of_le ?_ (le_weigh (w := finishing s .notifyFinished) hmem)
  simp

/-- Every scan that is notified has been counted. -/
structure Paired (m : DaemonState cfg) : Prop where
  finished_le : ∀ s, m.shared.history.finished.count s ≤ m.shared.history.accepted.count s
  fresh : ∀ s, committing (m.stack .run) = some s → m.shared.scheduler.state s ≠ some .done →
    m.shared.history.finished.count s = 0

/-- A refused scan is notified by `run` itself, before its refusal is committed. -/
theorem accepted_of_notifies (h : (daemon cfg tree maxScanId).Reachable m)
    (hok : NotifiesCommitted m a) {t : ℕ}
    (hf : m.stack a.1 = .finish s (.notifyFinished t) :: rest) :
    0 < m.shared.history.accepted.count s := by
  have hsound := sound_of_reachable h
  have hn := notifying_pos hf
  have hsh := hsound.shape a.1
  rw [hf] at hsh
  rcases hsh.finish with ⟨j, hi⟩ | ⟨hi, data, hd, hid⟩
  · rw [hi] at hf
    exact List.count_pos_iff.mpr ((owned_of_reachable h).stack j _ (hf ▸ List.mem_cons_self) s rfl)
  · by_contra ha
    have h₁ := ((hsound.valid s).of_notifying hn).1
    have h₂ : (life s m).accepted = 0 := Nat.eq_zero_of_not_pos ha
    have hst := ((hsound.valid s).rejected (by omega)).1
    rw [← hf, hi] at hd
    exact hok _ (Machine.top_of_stack hf) s rfl hst data hd hid

theorem Paired.step (h : (daemon cfg tree maxScanId).Reachable m) (hp : Paired m)
    (hok : NotifiesCommitted m a) (hs : (daemon cfg tree maxScanId).step m a = some m') :
    Paired m' := by
  have hsound := sound_of_reachable h
  have hmoves := moves_of_step h hs
  obtain ⟨f, rest, fs, R, hf, hst, -, hF, -⟩ := daemon_step hs
  refine ⟨fun s => ?_, fun s hc hd => ?_⟩
  · have hle := hp.finished_le s
    have hacc := hst.count_accepted_le s
    rcases hst.finished_eq with he | ⟨s', t, rfl, he⟩ <;> rw [he]
    · omega
    · by_cases hid : s' = s
      · subst hid
        have h₁ := accepted_of_notifies h hok hf
        have h₂ := ((hsound.valid s').of_notifying (by simp [life, lifeOf, hF])).2
        simp only [life, lifeOf] at h₂
        rw [List.count_cons_self]
        omega
      · rw [List.count_cons_of_ne hid]
        omega
  · have hd' : m.shared.scheduler.state s ≠ some .done := by
      intro hd'
      have hm := hmoves s
      rw [hd'] at hm
      exact hd (hm.terminal (.inr (.inr (.inl rfl))))
    rcases hsound.step_cases hs with ⟨pc, gs, -, hr, hrun, hr', -, -⟩ |
      ⟨g, grest, gs, -, hg, hsh, hgst, hne, hpc, -, -⟩
    · have hfin : m'.shared.history.finished = m.shared.history.finished := by
        rcases (Step.run hrun).finished_eq with he | ⟨_, _, he, _⟩
        · exact he
        · cases he
      rw [hfin]
      rw [hr'] at hc
      have hfresh := hp.fresh s
      rw [hr] at hfresh
      generalize m'.shared = τ at hrun
      cases hrun with
      | @accept data =>
        simp only [committing_run, RunPc.committing, Option.some.injEq] at hc
        have hk := (hsound.valid s).of_early (by simp [life, lifeOf, hr, hc, Phase.early])
        have hn := (hsound.valid s).notified
        simp only [life, lifeOf] at hk hn
        omega
      | _ => simp at hc
    · rw [committing, hpc] at hc
      have hfresh := hp.fresh s hc hd'
      rcases hgst.finished_eq with he | ⟨s', t, rfl, he⟩ <;> rw [he]
      · exact hfresh
      · by_cases hid : s' = s
        · subst hid
          obtain ⟨q, hq⟩ := (committing_eq_some _).mp hc
          obtain ⟨data, hdata, hid⟩ := mem_runData_of_phase (s := s') (by rw [hq]; simp)
          rcases hsound.state_of_notifying (notifying_pos hg) with ⟨-, hne⟩ | hst | ⟨hst, -⟩
          · exact absurd hc hne
          · exact absurd hid (hok _ (Machine.top_of_stack hg) s' rfl hst data hdata)
          · refine absurd ?_ hd
            generalize m'.shared = τ at hgst
            cases hgst with
            | finish hgst =>
              cases hgst
              simp [state_notifyScanFinished, hst, Life.finishedState]
        · rw [List.count_cons_of_ne hid]
          exact hfresh

theorem paired_of_reach (h : (daemon cfg tree maxScanId).Reach NotifiesCommitted m) :
    Paired m := by
  refine h.invariant ⟨fun s => le_rfl, ?_⟩ fun n a n' hn hok hs hp => ?_
  · simp [daemon, initialStack]
  · exact hp.step hn.reachable hok hs

/-- When the main thread is past the join of the pool, no worker has a frame left. -/
theorem WellFormed.worker_exited (h : WellFormed m) (hmain : 5 ≤ mainRank (m.stack .main))
    (i : Fin cfg.scanPoolNumThreads) : m.stack (.worker i) = [] := by
  have hz : weigh poolWeight m.frames = 0 := by rw [← h.flags.live, h.flags.joined hmain]
  have hsh : WorkerShape (m.stack (.worker i)) := h.shape (.worker i)
  generalize hl : m.stack (.worker i) = l at hsh
  cases hsh with
  | exited => rfl
  | @working l' _ =>
    have hmem : .workForever ∈ m.frames := Machine.mem_frames.mpr ⟨.worker i, by simp [hl]⟩
    simpa [poolWeight] using weigh_eq_zero_iff.mp hz _ hmem

/-- When shutdown and `run` are over, only HTTP workers and the result thread have frames. -/
theorem WellFormed.frames_exited (h : WellFormed m) (hmain : m.stack .main = [])
    (hrun : m.stack .run = []) : ∀ f ∈ m.frames, f.IsHttp ∨ ∃ pc, f = .result pc := by
  intro f hf
  obtain ⟨i, hi⟩ := Machine.mem_frames.mp hf
  have hsh := h.shape i
  cases i with
  | http _ => exact .inl (hsh f hi)
  | run => simp [hrun] at hi
  | worker i => simp [h.worker_exited (by simp [hmain]) i] at hi
  | result =>
    change ResultShape (m.stack .result) at hsh
    generalize m.stack .result = l at hsh hi
    cases hsh with
    | exited => simp at hi
    | running pc => exact .inr ⟨pc, by simpa using hi⟩
  | main => simp [hmain] at hi

/-- When shutdown and `run` are over, every scan that was taken on has been notified. -/
theorem Sound.finished_of_exited (h : Sound m) (hn : 0 < cfg.scanPoolNumThreads)
    (hmain : m.stack .main = []) (hrun : m.stack .run = []) (s : ScanId) :
    m.shared.history.finished.count s =
      m.shared.history.accepted.count s + m.shared.history.rejected.count s := by
  have hlive : m.shared.manager.scanPool.live = 0 := h.flags.joined (by simp [hmain])
  have hc : m.shared.manager.scanPool.jobQueue.container = [] :=
    (h.flags.left (by omega)).2
  have hframes := h.frames_exited hmain hrun
  have hz : ∀ w : Frame → ℕ, (∀ f, f.IsHttp ∨ (∃ pc, f = .result pc) → w f = 0) →
      weigh w m.frames = 0 := fun w hw => weigh_eq_zero fun f hf => hw f (hframes f hf)
  have hj : weigh (jobWeight s) m.frames = 0 := hz _ fun f hf => by
    rcases hf with hf | ⟨pc, rfl⟩
    · cases f <;> first | rfl | exact hf.elim
    · rfl
  have hno : weigh (finishing s .notifyFinished) m.frames = 0 := hz _ fun f hf => by
    rcases hf with hf | ⟨pc, rfl⟩
    · cases f <;> first | rfl | exact hf.elim
    · rfl
  have h₁ := (h.valid s).drain
  have h₂ := (h.valid s).notified
  simp only [life, lifeOf, hj, hno, hc, List.countP_nil] at h₁ h₂
  simp at h₁
  omega

/-- `running_scans` and its gauge are never negative, and both are 0 when shutdown and
`run` are over, provided that no canceled scan is notified before `run` has committed it. -/
theorem scan_running_drained (h : (daemon cfg tree maxScanId).Reach NotifiesCommitted m) :
    (0 ≤ m.shared.scheduler.runningScans ∧ 0 ≤ m.shared.scheduler.scanRunning) ∧
    (0 < cfg.scanPoolNumThreads → m.stack .main = [] → m.stack .run = [] →
      m.shared.scheduler.runningScans = 0 ∧ m.shared.scheduler.scanRunning = 0) := by
  have hsound := sound_of_reachable h.reachable
  have hc := counted_of_reachable h.reachable
  have hp := paired_of_reach h
  have hcard := History.card_unfinished (accepted_once h.reachable) hp.finished_le
  rw [hc.gauge, and_self]
  refine ⟨?_, fun hn hmain hrun => ?_⟩
  · have h₁ := hc.count
    cases ho : committing (m.stack .run) with
    | none => rw [ho, Scheduler.uncounted_none] at h₁; omega
    | some s =>
      rw [ho] at h₁
      by_cases hd : m.shared.scheduler.state s = some .done
      · simp only [Scheduler.uncounted, if_pos hd] at h₁
        omega
      · have hfresh := hp.fresh s ho hd
        obtain ⟨q, hq⟩ := (committing_eq_some _).mp ho
        have hacc : m.shared.history.accepted.count s = 1 := (hsound.valid s).committing q hq
        have hmem : s ∈ m.shared.history.unfinished := by
          simp [History.unfinished, ← List.count_pos_iff, hacc, hfresh]
        have hpos := Finset.card_pos.mpr ⟨s, hmem⟩
        simp only [Scheduler.uncounted, if_neg hd] at h₁
        omega
  · have hempty : m.shared.history.unfinished = ∅ := by
      ext s
      have h₁ := hsound.finished_of_exited hn hmain hrun s
      have h₂ := hp.finished_le s
      simp [History.unfinished, ← List.count_pos_iff]
      omega
    have h₁ := hc.count
    rw [hrun, committing_nil, Scheduler.uncounted_none] at h₁
    rw [hempty, Finset.card_empty] at hcard
    rw [and_self]
    omega

/-- Shutdown while a scan is running: the scan is canceled, drained and counted off. -/
theorem scan_running_drained_shutdown :
    let D := daemon (smallConfig 1 1 1) (fun _ => .file 0 0) 0
    let m := D.run (serve (.submit ['/', 'a']) 2 ++ steps 5 .run ++ steps 3 .main ++
      steps 10 (.worker ⟨0, Nat.one_pos⟩) ++ steps 4 .main ++ steps 1 .run ++
      steps 1 (.worker ⟨0, Nat.one_pos⟩) ++ steps 2 .main ++ steps 5 .result ++ steps 1 .main)
    m.shared.history.finished = [1] ∧ m.stack .main = [] ∧ m.stack .run = [] ∧
      m.shared.scheduler.runningScans = 0 ∧ m.shared.scheduler.scanRunning = 0 :=
  ⟨by decide, by rfl, by rfl,
    (scan_running_drained (System.reach_run (by decide))).2 (by decide) (by rfl) (by rfl)⟩

/-- A scan canceled between its acceptance and the commit of `run` is counted off first. Also a
scan that shutdown catches before its registration is counted off and never on. -/
theorem scan_running_negative :
    let D := daemon (smallConfig 1 1 1) (fun _ => .file 0 0) 0
    (∃ m, D.Reachable m ∧ m.shared.scheduler.runningScans = -1 ∧
      m.shared.scheduler.scanRunning = -1) ∧
    ∃ m, D.Reachable m ∧ m.stack .main = [] ∧ m.stack .run = [] ∧
      m.shared.scheduler.runningScans = -1 ∧ m.shared.scheduler.scanRunning = -1 := by
  refine ⟨⟨_, System.reachable_run _ (serve (.submit ['/', 'a']) 2 ++ steps 4 .run ++
    serve (.cancel 1) 2 ++ steps 4 (.worker ⟨0, Nat.one_pos⟩)), by decide, by decide⟩,
    ⟨_, System.reachable_run _ (serve (.submit ['/', 'a']) 2 ++ steps 1 .run ++ steps 7 .main ++
      steps 13 .run ++ steps 1 (.worker ⟨0, Nat.one_pos⟩) ++ steps 2 .main ++ steps 5 .result ++
      steps 1 .main), by rfl, by rfl, by decide, by decide⟩⟩

end ScanDaemon
