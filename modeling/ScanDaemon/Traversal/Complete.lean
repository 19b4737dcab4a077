import ScanDaemon.Traversal.Coverage

/-! # Complete scans

A scan whose sentinel says that it is complete has recorded its whole tree. A
stopped pool refuses jobs, so shutdown has to cancel every scan before it stops
the pool. It misses a scan that `run` has not registered yet; apart from that,
only canceled scans are refused.
-/

namespace ScanDaemon

open Interleave

variable {cfg : Config} {tree : ScanId → FsNode} {σ σ' : Shared cfg} {x : Input} {f : Frame}
  {fs : List Frame} {F R : Multiset Frame} {maxScanId : ScanId} {m m' : DaemonState cfg}
  {a : Thread cfg × Input} {s : ScanId} {v w : Life}

namespace Life

/-- The scan may still hand a job to the pool. -/
def Exposed (v : Life) : Prop := v.phase = .start ∨ v.phase.entered = 1 ∨ 0 < v.jobs

/-- The cancellation has reached the context that the scan is going to keep. -/
def Reached (v : Life) : Prop := v.canceled = true ∧ v.phase ≠ .start

/-- Once shutdown has begun, no scan gets exposed. -/
theorem Step.exposed (hs : Step s v w) (hstop : v.stop = true) (hw : w.Exposed) : v.Exposed := by
  unfold Exposed at *
  cases hs with
  | dispatch _ hf => simp [hf] at hstop
  | start_failed hp | register hp => exact .inl hp
  | submit_root hp | accept hp | refuse_full hp | refuse_shutdown hp | full hp | store_failed hp
  | erase hp => exact .inr (.inl (by rw [hp]; rfl))
  | commit_canceled hp | commit_canceled_refused hp | commit_running hp | commit_pending hp
  | commit_failed hp | commit_other hp => simpa [hp, Phase.entered] using hw
  | spawn hj | drain hj | decrement hj => exact .inr (.inr hj)
  | _ => exact hw

theorem Step.reached (hs : Step s v w) (hstop : v.stop = true) (hv : v.Reached) : w.Reached := by
  obtain ⟨hc, hp⟩ := hv
  cases hs with
  | dispatch _ hf => simp [hf] at hstop
  | register hst => exact absurd hst hp
  | cancel_scan => exact ⟨by simp [hc], hp⟩
  | start_failed | submit_root | accept | refuse_full | refuse_shutdown | full | store_failed
  | erase | commit_canceled | commit_canceled_refused | commit_running | commit_pending
  | commit_failed | commit_other => exact ⟨hc, by simp⟩
  | _ => exact ⟨hc, hp⟩

/-- An exposed scan is dispatching, running or canceled. -/
theorem Valid.maybeRunning (h : v.Valid s) (he : v.Exposed) :
    v.state = some .running ∨ v.state = some .dispatching ∨ v.state = some .canceled := by
  have hphase : v.phase.early = 1 → v.phase ≠ .away →
      v.state = some .running ∨ v.state = some .dispatching ∨ v.state = some .canceled := by
    intro hp hne
    rcases h.state_of_phase hne with hst | hst | hst
    · exact .inr (.inl hst)
    · exact .inr (.inr hst)
    · have h₁ := h.done hst
      have h₂ := h.of_early hp
      omega
  rcases he with hp | hp | hj
  · exact hphase (by rw [hp]; rfl) (by simp [hp])
  · cases hv : v.phase <;> simp [hv, Phase.entered] at hp <;>
      exact hphase (by rw [hv]; rfl) (by simp [hv])
  · obtain ⟨h₁, h₂, -⟩ := h.of_jobs hj
    have h₃ := h.notified
    rcases hst : v.state with _ | st
    · have h₄ := (h.before (.inl hst)).2; omega
    · cases st with
      | pending | dropped | failed =>
        have h₄ := (h.before (by simp [hst])).2
        omega
      | done => have h₄ := h.done hst; omega
      | running | dispatching | canceled => simp

theorem Valid.registered_of_exposed (h : v.Valid s) (he : v.Exposed) (hp : v.phase ≠ .start) :
    v.registered = true := by
  have hr := h.registry
  by_contra hn
  rw [Bool.not_eq_true] at hn
  simp only [hn, Bool.toNat_false] at hr
  rcases he with hp' | he | hj
  · exact hp hp'
  · have h₁ := (h.of_early (by cases hv : v.phase <;> simp [hv, Phase.entered] at he <;> rfl)).2.2.1
    omega
  · have h₁ := h.of_jobs hj
    omega

end Life

/-- The scans that shutdown is going to cancel, read from the stack of the main thread. -/
def announced : List Frame → List ScanId
  | .cancelScan id :: rest => id :: announced rest
  | .main (.cancelLoop todo _) :: _ => todo
  | _ => []

/-- Every exposed scan is canceled, or shutdown is going to cancel it. -/
def Warned (m : DaemonState cfg) : Prop :=
  1 ≤ mainRank (m.stack .main) → ∀ s, (life s m).Exposed →
    s ∈ announced (m.stack .main) ∨ (life s m).Reached

/-- The scan whose `Manager::cancel_scan` the frame calls. -/
def Frame.cancels : Frame → Option ScanId
  | .cancelScan id => some id
  | _ => none

/-- The step is not a cancellation by shutdown that misses a scan which `run` is dispatching and
has not registered. -/
def CancelsRegistered (m : DaemonState cfg) (a : Thread cfg × Input) : Prop :=
  a.1 = .main → ∀ f ∈ m.top .main, ∀ s ∈ f.cancels,
    ∀ pc ∈ runPc (m.stack .run), pc.phase s ≠ .start

instance (m : DaemonState cfg) (a : Thread cfg × Input) : Decidable (CancelsRegistered m a) :=
  inferInstanceAs (Decidable (_ → ∀ f ∈ m.top .main, _))

/-- The main thread works on no job itself. -/
theorem MainStep.exposed {pc : MainPc} {ph : Phase} (hs : MainStep σ pc σ' fs)
    (he : (lifeOf s σ' ((fs : Multiset Frame) + R) ph).Exposed) :
    (lifeOf s σ (.main pc ::ₘ R) ph).Exposed := by
  cases hs <;> simpa [lifeOf, Life.Exposed] using he

theorem Warned.step (h : (daemon cfg tree maxScanId).Reachable m) (hw : Warned m)
    (hok : CancelsRegistered m a) (hs : (daemon cfg tree maxScanId).step m a = some m') :
    Warned m' := by
  have hsound := sound_of_reachable h
  obtain ⟨f, rest, fs, R, hf, hst, hm', hF, hF'⟩ := daemon_step hs
  have hsh := hsound.shape a.1
  rw [hf] at hsh
  intro hrank s he
  -- the life of `s` in the step, once shutdown has begun
  have hlife : (life s m).stop = true →
      ((life s m').Exposed → (life s m).Exposed) ∧ ((life s m).Reached → (life s m').Reached) := by
    intro hstop
    rcases Relation.reflGen_iff _ _ _ |>.mp (hsound.lives hs s) with hl | hl
    · rw [hl]; exact ⟨id, id⟩
    · exact ⟨hl.exposed hstop, hl.reached hstop⟩
  have hstop : 1 ≤ mainRank (m.stack .main) → (life s m).stop = true :=
    hsound.flags.scheduler.mpr
  by_cases hi : a.1 = .main
  · have hok := hok hi f (by rw [← hi]; exact Machine.top_of_stack hf)
    rw [hi] at hf hsh
    have hrun : m'.stack .run = m.stack .run := by
      rw [hm', hi, Function.update_of_ne (by simp)]
    have hmain : m'.stack .main = fs ++ rest := by rw [hm', hi, Function.update_self]
    rw [hmain] at hrank ⊢
    cases hsh with
    | canceling id todo all =>
      obtain ⟨h₁, h₂⟩ := hlife (hstop (by simp [hf, MainPc.rank]))
      have hold := hw (by simp [hf, MainPc.rank]) s (h₁ he)
      rw [hf] at hold
      generalize hτ : m'.shared = τ at hst
      cases hst
      rcases hold with hold | hold
      · rcases List.mem_cons.mp hold with rfl | hold
        · have hp : (life s m).phase ≠ .start := by
            intro hp
            obtain ⟨pc, hpc, hph⟩ :=
              mem_runPc_of_phase (show runPhase s (m.stack .run) = .start from hp)
              (by simp)
            exact hok s rfl pc hpc hph
          have hreg := (hsound.valid s).registered_of_exposed (h₁ he) hp
          refine .inr ⟨?_, ?_⟩
          · have hreg : (m.shared.manager.registry.lookup s).isSome = true := hreg
            simp [life, lifeOf, hτ, Manager.cancelScan_registered hreg]
          · simpa [life, lifeOf, hrun] using hp
        · exact .inl hold
      · exact .inr (h₂ hold)
    | running pc =>
      have hsame : (life s m').Exposed → (life s m).Exposed := by
        rw [life, life, hF, hF', hrun]
        generalize m'.shared = τ at hst
        cases hst with
        | main hst => exact hst.exposed
      have hold : 1 ≤ pc.rank → s ∈ announced (m.stack .main) ∨ (life s m').Reached := by
        intro hpc
        have hpc : 1 ≤ mainRank (m.stack .main) := by rwa [hf, mainRank_main]
        exact (hw hpc s (hsame he)).imp_right (hlife (hstop hpc)).2
      rw [hf] at hold
      generalize m'.shared = τ at hst
      cases hst with
      | main hst =>
        cases hst with
        | shutdown =>
          exact .inl (Scheduler.mem_shutdown.mpr ((hsound.valid s).maybeRunning (hsame he)))
        | cancel_end | cancel_next => exact hold le_rfl
        | _ => exact .inr ((hold (by simp [MainPc.rank])).resolve_left (by simp [announced]))
  · have hmain : m'.stack .main = m.stack .main := by
      rw [hm', Function.update_of_ne (Ne.symm hi)]
    rw [hmain] at hrank ⊢
    obtain ⟨h₁, h₂⟩ := hlife (hstop hrank)
    exact (hw hrank s (h₁ he)).imp_right h₂

theorem warned_of_reach (h : (daemon cfg tree maxScanId).Reach CancelsRegistered m) :
    Warned m := by
  refine h.invariant (fun hrank => ?_) fun n a n' hn hok hs hw => hw.step hn.reachable hok hs
  simp [daemon, initialStack, MainPc.rank] at hrank

/-- In a stopped pool every job belongs to a canceled scan. -/
theorem Warned.canceled (hw : Warned m) (hs : Sound m)
    (hp : m.shared.manager.scanPool.jobQueue.stopFlag = true) (he : (life s m).Exposed) :
    (life s m).canceled = true := by
  have hrank := hs.flags.pool.mp hp
  have hsh := hs.shape .main
  have hnone : announced (m.stack .main) = [] := by
    change MainShape (m.stack .main) at hsh
    generalize m.stack .main = l at hsh hrank
    cases hsh with
    | exited => rfl
    | running pc => cases pc <;> first | rfl | simp [MainPc.rank] at hrank
    | canceling id todo all => simp [MainPc.rank] at hrank
  have hold := hw (by omega) s he
  rw [hnone] at hold
  exact (hold.resolve_left (by simp)).1

/-- The scan was accepted, and the events of its tree are among `evs`. -/
def Finalised (tree : ScanId → FsNode) (h : History) (s : ScanId) (evs : List FileEvent) : Prop :=
  s ∈ h.accepted ∧ RecordsAll tree h.submitted s evs

/-- A frame that carries a sentinel for a complete scan comes after the events of the scan. -/
def Frame.Finalises (tree : ScanId → FsNode) (σ : Shared cfg) : Frame → Prop
  | .finish id (.takeTask _ false) => Finalised tree σ.history id σ.exportManager.pushed
  | .finish id (.pushSentinel fake _) => fake.endSignal.isCanceled = false →
      Finalised tree σ.history id σ.exportManager.pushed
  | _ => True

/-- The pool drops only jobs of canceled scans, and every sentinel of a complete scan comes after
the events of the scan. -/
structure Complete (tree : ScanId → FsNode) (m : DaemonState cfg) : Prop where
  exhaustive : Exhaustive tree m
  rejected : ∀ s ∈ m.shared.history.rejected, (m.shared.manager.context s).canceled = true
  frames : ∀ f ∈ m.frames, f.Finalises tree m.shared
  sentinels : ∀ pre ev post, m.shared.exportManager.pushed = pre ++ ev :: post →
    ev.endSignal = ⟨true, false⟩ → Finalised tree m.shared.history ev.scanId pre

theorem Finalised.mono {h h' : History} {evs evs' : List FileEvent} (hf : Finalised tree h s evs)
    (hacc : h.accepted ⊆ h'.accepted) (hsub : h.submitted ⊆ h'.submitted) (hevs : evs ⊆ evs') :
    Finalised tree h' s evs' :=
  ⟨hacc hf.1, hf.2.mono hsub hevs⟩

theorem Frame.Finalises.mono (h : f.Finalises tree σ)
    (hacc : σ.history.accepted ⊆ σ'.history.accepted)
    (hsub : σ.history.submitted ⊆ σ'.history.submitted)
    (hevs : σ.exportManager.pushed ⊆ σ'.exportManager.pushed) : f.Finalises tree σ' := by
  cases f with
  | finish id pc =>
    cases pc with
    | takeTask t c => cases c <;> first | trivial | exact Finalised.mono h hacc hsub hevs
    | pushSentinel fake row => exact fun hc => (h hc).mono hacc hsub hevs
    | _ => trivial
  | _ => trivial

theorem Step.pushed_subset (hs : Step tree σ x f σ' fs) :
    σ.exportManager.pushed ⊆ σ'.exportManager.pushed := by
  rcases hs.pushed_eq with he | ⟨_, -, he⟩ | ⟨_, _, _, -, he⟩ <;> rw [he]
  · exact List.Subset.refl _
  · exact List.subset_append_left _ _
  · exact List.subset_append_left _ _

/-- A scan whose flag is read as not canceled for its sentinel has recorded its tree. -/
theorem Complete.of_reads (hc : Complete tree m) (h : (daemon cfg tree maxScanId).Reachable m)
    {t : ℕ} (hf : .finish s (.readCanceled t) ∈ m.frames)
    (hcan : (m.shared.manager.context s).canceled = false) :
    Finalised tree m.shared.history s m.shared.exportManager.pushed := by
  have hv := (sound_of_reachable h).valid s
  have hr : 0 < (life s m).reading :=
    Nat.lt_of_lt_of_le (by simp) (le_weigh (w := finishing s .readCanceled) hf)
  have h₁ := hv.closing
  have h₂ := hv.drain
  have hrej : s ∉ m.shared.history.rejected := fun hr => by simp [hc.rejected s hr] at hcan
  have hacc : s ∈ m.shared.history.accepted := by
    have h₃ : (life s m).rejected = 0 := List.count_eq_zero.mpr hrej
    have h₄ : 0 < (life s m).accepted := by split_ifs at h₂ <;> omega
    exact List.count_pos_iff.mp h₄
  exact ⟨hacc, hc.exhaustive.recordsAll h hacc (show 0 < (life s m).drained by omega) hcan⟩

theorem Step.finalises (hst : Step tree σ x f σ' fs) (hf : f.Finalises tree σ)
    (hreads : ∀ s t, f = .finish s (.readCanceled t) → (σ.manager.context s).canceled = false →
      Finalised tree σ.history s σ.exportManager.pushed) : ∀ g ∈ fs, g.Finalises tree σ' := by
  cases hst with
  | finish hst =>
    cases hst with
    | read_canceled =>
      simp only [List.mem_singleton, forall_eq]
      cases hcan : (σ.manager.context _).canceled with
      | true => trivial
      | false => exact hreads _ _ rfl hcan
    | @take_task t c =>
      simp only [List.mem_singleton, forall_eq]
      rintro (rfl : c = false)
      exact hf
    | _ => simp [Frame.Finalises]
  | http hst | run hst | workForever hst | workerJob hst | result hst | main hst =>
    cases hst <;> simp [Frame.Finalises]
  | cancelScan => simp

theorem Complete.step (h : (daemon cfg tree maxScanId).Reachable m) (hc : Complete tree m)
    (hstop : m.shared.manager.scanPool.jobQueue.stopFlag = true → ∀ s, (life s m).Exposed →
      (m.shared.manager.context s).canceled = true)
    (hs : (daemon cfg tree maxScanId).step m a = some m') : Complete tree m' := by
  have hsound := sound_of_reachable h
  obtain ⟨f, rest, fs, R, hf, hst, -, hF, hF'⟩ := daemon_step hs
  have hfF : f ∈ m.frames := by rw [hF]; exact Multiset.mem_cons_self _ _
  have hmono : ∀ {id evs}, Finalised tree m.shared.history id evs →
      Finalised tree m'.shared.history id evs := fun hk =>
    hk.mono hst.accepted_subset hst.submitted_subset (List.Subset.refl _)
  refine ⟨hc.exhaustive.step h (fun hp s hj => hstop hp s (.inr (.inr hj))) hs, fun s hr => ?_,
    fun g hg => ?_, fun pre ev post hp he => ?_⟩
  · rcases hst.rejected_eq with hr' | ⟨data, rfl, hp, hctx, hr'⟩ <;> rw [hr'] at hr
    · exact canceled_stays h hs (.inr hr) (hc.rejected s hr)
    · rcases List.mem_cons.mp hr with rfl | hr
      · rw [hctx]
        refine hstop hp _ (.inr (.inl ?_))
        have hph : (life data.scanId m).phase = .push := by
          simpa [life, lifeOf] using hsound.runPhase_eq hfF data.scanId
        rw [hph]
        rfl
      · exact canceled_stays h hs (.inr hr) (hc.rejected s hr)
  · rw [hF', Multiset.mem_add] at hg
    rcases hg with hg | hg
    · exact hst.finalises (hc.frames f hfF) (fun s t he hcan => hc.of_reads h (he ▸ hfF) hcan) g hg
    · have hgF : g ∈ m.frames := by rw [hF]; exact Multiset.mem_cons_of_mem hg
      exact (hc.frames g hgF).mono hst.accepted_subset hst.submitted_subset hst.pushed_subset
  · have hold : ∀ post, m.shared.exportManager.pushed = pre ++ ev :: post →
        Finalised tree m'.shared.history ev.scanId pre :=
      fun post hp => hmono (hc.sentinels pre ev post hp he)
    rcases hst.pushed_eq with hp' | ⟨data, -, hp'⟩ | ⟨id, fake, row, rfl, hp'⟩ <;> rw [hp'] at hp
    · exact hold post hp
    · rcases append_singleton_eq hp with ⟨-, rfl, -⟩ | ⟨post, -, hp⟩
      · simp at he
      · exact hold post hp
    · rcases append_singleton_eq hp with ⟨-, rfl, rfl⟩ | ⟨post, -, hp⟩
      · have hfin := hc.frames _ hfF (by rw [he])
        rw [(sealed_of_reachable h _ hfF).1.2]
        exact hmono hfin
      · exact hold post hp

theorem complete_initial : Complete tree (daemon cfg tree maxScanId).init := by
  refine ⟨?_, ?_, fun f hf => ?_, ?_⟩
  · simp [Exhaustive, daemon, Shared.new, History.new]
  · simp [daemon, Shared.new, History.new]
  · obtain ⟨i, hi⟩ := Machine.mem_frames.mp hf
    cases i <;> simp [daemon, initialStack] at hi <;> subst hi <;> trivial
  · simp [daemon, Shared.new, ExportManager.new, ExportManager.pushed, JobQueue.new]

/-- In the runs in which shutdown cancels no scan that is dispatched and not yet registered, a
sentinel with `is_canceled = false` comes after the events of all nodes of its scan, and no root
job of that scan was refused with `Shutdown`. -/
theorem complete_scan_recorded (h : (daemon cfg tree maxScanId).Reach CancelsRegistered m)
    {pre post : List FileEvent} {ev : FileEvent}
    (hp : m.shared.exportManager.pushed = pre ++ ev :: post)
    (hs : ev.endSignal.isSentinel = true) (hc : ev.endSignal.isCanceled = false) :
    ev.scanId ∉ m.shared.history.rejected ∧
      ∃ root, (ev.scanId, root) ∈ m.shared.history.submitted ∧
        ∀ e ∈ (rootJob tree ⟨ev.scanId, root⟩).events, e ∈ pre := by
  have hcom : Complete tree m := by
    refine h.invariant (P := Complete tree) complete_initial fun n a n' hn hok hs hc =>
      hc.step hn.reachable (fun hp s he => ?_) hs
    exact (warned_of_reach hn).canceled (sound_of_reachable hn.reachable) hp he
  have he : ev.endSignal = ⟨true, false⟩ := by rw [← hs, ← hc]
  obtain ⟨hacc, hrec⟩ := hcom.sentinels pre ev post hp he
  refine ⟨fun hr => ?_, hrec⟩
  have h₁ := ((sound_of_reachable h.reachable).valid ev.scanId).once
  have h₂ : 0 < (life ev.scanId m).accepted := List.count_pos_iff.mpr hacc
  have h₃ : 0 < (life ev.scanId m).rejected := List.count_pos_iff.mpr hr
  omega

/-- A directory with a file, scanned to the end. -/
theorem complete_scan_recorded_dir :
    let m := (daemon (smallConfig 1 1 1) (fun _ => smallTree) 0).run
      (serve (.submit ['/', 'a']) 2 ++ steps 5 .run ++ steps 20 (.worker ⟨0, Nat.one_pos⟩))
    m.shared.exportManager.pushed.map FileEvent.endSignal =
        [⟨false, false⟩, ⟨false, false⟩, ⟨true, false⟩] ∧
      ∀ pre ev post, m.shared.exportManager.pushed = pre ++ ev :: post →
        ev.endSignal.isSentinel = true → ev.endSignal.isCanceled = false →
        ∃ root, (ev.scanId, root) ∈ m.shared.history.submitted ∧
          ∀ e ∈ (rootJob (fun _ => smallTree) ⟨ev.scanId, root⟩).events, e ∈ pre :=
  ⟨by decide, fun _ _ _ hp hs hc =>
    (complete_scan_recorded (System.reach_run (by decide +kernel)) hp hs hc).2⟩

/-- Shutdown cancels a scan that is not registered yet; its root job is refused and its sentinel
says that the scan is complete. -/
theorem refused_scan_complete :
    ∃ m, (daemon (smallConfig 1 1 1) (fun _ => .file 0 0) 0).Reachable m ∧
      1 ∈ m.shared.history.rejected ∧ ∃ ev, m.shared.exportManager.pushed = [] ++ ev :: [] ∧
        ev.scanId = 1 ∧ ev.endSignal = ⟨true, false⟩ :=
  ⟨_, System.reachable_run _ (serve (.submit ['/', 'a']) 2 ++ steps 1 .run ++ steps 7 .main ++
      steps 8 .run), by decide, _, rfl, by decide, by decide⟩

end ScanDaemon
