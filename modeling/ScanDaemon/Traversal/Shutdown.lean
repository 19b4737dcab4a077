import ScanDaemon.Lifecycle.Exports
import ScanDaemon.Traversal.Coverage

/-! # What shutdown leaves behind

When the main thread is through with shutdown, the workers have run every job
of the accepted scans, and the result thread has dealt with all that they have
put into the result queue, unless a missing row has ended it before.
-/

namespace ScanDaemon

open Interleave

variable {cfg : Config} {tree : ScanId → FsNode} {σ σ' : Shared cfg} {x : Input} {f : Frame}
  {fs rest : List Frame} {R : Multiset Frame} {maxScanId : ScanId} {m m' : DaemonState cfg}
  {a : Thread cfg × Input} {s : ScanId} {pc : FinishPc}

/-- Of an accepted scan, only the workers call `task_on_job_finish`. -/
theorem worker_of_finish (h : (daemon cfg tree maxScanId).Reachable m) {i : Thread cfg}
    (hf : m.stack i = .finish s pc :: rest) (ha : s ∈ m.shared.history.accepted) :
    ∃ j, i = .worker j := by
  have hsound := sound_of_reachable h
  have hsh := hsound.shape i
  rw [hf] at hsh
  rcases hsh.finish with hw | ⟨hi, -⟩
  · exact hw
  · -- a scan that the thread of `run` finishes has been refused
    rw [hi] at hf hsh
    generalize hl : Frame.finish s pc :: rest = l at hsh
    cases hsh with
    | refused data pc =>
      obtain ⟨he, -⟩ := List.cons.inj hl
      cases he
      have hv := hsound.valid data.scanId
      have hphase : (life data.scanId m).phase = .commit false false := by
        simp [life, lifeOf, hf, ← hl, runPhase, runPc, (List.cons.inj hl).2]
      have hacc : (life data.scanId m).accepted = 1 := by
        have h₁ := hv.once
        have h₂ : 0 < (life data.scanId m).accepted := List.count_pos_iff.mpr ha
        omega
      rcases hv.accepted hacc with hp | ⟨q, hp⟩ <;> rw [hphase] at hp <;> cases hp
    | _ => cases hl

/-- What a step does to the rows of `s` that are stored or about to be stored: they stay as many,
unless a sentinel is pushed or dropped. -/
theorem Step.closed_eq (hs : Step tree σ x f σ' fs) (hf : f.Sealed) :
    weigh (storing s) ((fs : Multiset Frame) + R) + σ'.history.storedRows s =
        weigh (storing s) (f ::ₘ R) + σ.history.storedRows s ∨
      ∃ fake row, f = .finish s (.pushSentinel fake row) ∧
        (σ.exportManager.resultQueue.stopFlag = true ∨
          σ'.exportManager.pushed = σ.exportManager.pushed ++ [fake]) := by
  cases hs with
  | finish hs =>
    cases hs with
    | @push_dropped fake row hstop =>
      by_cases hs : row.scanId = s
      · obtain rfl := hs
        exact .inr ⟨fake, row, by rw [hf.2], .inl hstop⟩
      · exact .inl (by simp [hs])
    | @push_sentinel fake row =>
      by_cases hs : row.scanId = s
      · obtain rfl := hs
        exact .inr ⟨fake, row, by rw [hf.2], .inr (by simp [ExportManager.pushed])⟩
      · exact .inl (by simp [hs])
    | insert_row =>
      refine .inl ?_
      simp [History.storedRows, List.countP_cons]
      omega
    | _ => exact .inl (by simp [History.storedRows])
  | http hs | run hs | workForever hs | workerJob hs | result hs | main hs =>
    cases hs <;> exact .inl (by simp [History.storedRows])
  | cancelScan => exact .inl (by simp)

/-- The sentinel of an accepted scan is pushed before its row is stored. -/
theorem pushed_of_closed (h : (daemon cfg tree maxScanId).Reachable m)
    (ha : s ∈ m.shared.history.accepted)
    (hc : 0 < weigh (storing s) m.frames + m.shared.history.storedRows s) :
    ∃ ev ∈ m.shared.exportManager.pushed, ev.Ends s := by
  refine h.invariant (P := fun m : DaemonState cfg => s ∈ m.shared.history.accepted →
    0 < weigh (storing s) m.frames + m.shared.history.storedRows s →
      ∃ ev ∈ m.shared.exportManager.pushed, ev.Ends s) ?_ ?_ ha hc
  · simp [daemon, Shared.new, History.new]
  · intro n a n' hn _ hs hk ha hc
    have hsound := sound_of_reachable hn
    obtain ⟨f, rest, fs, R, hf, hst, -, hF, hF'⟩ := daemon_step hs
    have hmem : f ∈ n.frames := hF ▸ Multiset.mem_cons_self _ _
    have hsub : n.shared.exportManager.pushed ⊆ n'.shared.exportManager.pushed := by
      rcases hst.pushed_eq with he | ⟨_, -, he⟩ | ⟨_, _, _, -, he⟩ <;> rw [he]
      · exact List.Subset.refl _
      · exact List.subset_append_left _ _
      · exact List.subset_append_left _ _
    rw [hF'] at hc
    rcases hst.closed_eq (s := s) (R := R) (sealed_of_reachable hn f hmem) with
      he | ⟨fake, row, rfl, hpush⟩
    · rw [he, ← hF] at hc
      have hacc : s ∈ n.shared.history.accepted := by
        rcases hst.accepted_eq with hacc | ⟨data, rfl, hacc⟩ <;> rw [hacc] at ha
        · exact ha
        · rcases List.mem_cons.mp ha with rfl | ha
          · -- nothing is stored of a scan that has not been accepted yet
            have hp : (life data.scanId n).phase = .push := by
              simpa [life, lifeOf] using hsound.runPhase_eq hmem data.scanId
            have hv := hsound.valid data.scanId
            have h₁ := hv.of_early (by rw [hp]; rfl)
            have h₂ := hv.closing
            have h₃ : (life data.scanId n).closed = weigh (rowWeight data.scanId) n.frames +
              n.shared.history.storedRows data.scanId := rfl
            have h₄ := storing_le (s := data.scanId) (F := n.frames)
            omega
          · exact ha
      obtain ⟨ev, hev, hends⟩ := hk hacc hc
      exact ⟨ev, hsub hev, hends⟩
    · have hacc : s ∈ n.shared.history.accepted := by
        rcases hst.accepted_eq with hacc | ⟨data, he, -⟩
        · exact hacc ▸ ha
        · cases he
      obtain ⟨j, hj⟩ := worker_of_finish hn hf hacc
      rcases hpush with hstop | hpush
      · -- the workers are gone before the result queue is stopped
        have hrank := hsound.flags.results.mp hstop
        have hnil := hsound.worker_exited (by omega) j
        rw [hj, hnil] at hf
        cases hf
      · exact ⟨fake, by simp [hpush], (sealed_of_reachable hn _ hmem).1⟩

/-- The result thread leaves an empty and stopped queue behind, unless a row is missing, and the
main thread waits for it. -/
structure ResultLeft (m : DaemonState cfg) : Prop where
  thread : m.shared.exportManager.resultThread = false → m.stack .result = []
  joined : m.stack .main = [] → m.stack .result = []
  left : m.stack .result = [] → m.shared.history.rowMissing = true ∨
    (m.shared.exportManager.resultQueue.stopFlag = true ∧
      m.shared.exportManager.resultQueue.container = [])

theorem Step.result_left (hs : Step tree σ x f σ' fs) (hf : ∀ pc, f ≠ .result pc) :
    σ'.exportManager.resultThread = σ.exportManager.resultThread ∧
      σ'.history.rowMissing = σ.history.rowMissing ∧
      (σ.exportManager.resultQueue.stopFlag = true →
        σ.exportManager.resultQueue.container = [] →
          σ'.exportManager.resultQueue.stopFlag = true ∧
            σ'.exportManager.resultQueue.container = []) := by
  cases hs with
  | result hs => exact absurd rfl (hf _)
  | finish hs =>
    cases hs with
    | push_sentinel hopen => exact ⟨rfl, rfl, fun hstop _ => by simp [hopen] at hstop⟩
    | _ => exact ⟨rfl, rfl, fun hs hc => ⟨hs, hc⟩⟩
  | workerJob hs =>
    cases hs with
    | scan hopen => exact ⟨rfl, rfl, fun hstop _ => by simp [hopen] at hstop⟩
    | _ => exact ⟨rfl, rfl, fun hs hc => ⟨hs, hc⟩⟩
  | main hs =>
    cases hs with
    | stop_export => exact ⟨rfl, rfl, fun _ hc => ⟨rfl, by simpa using hc⟩⟩
    | _ => exact ⟨rfl, rfl, fun hs hc => ⟨hs, hc⟩⟩
  | http hs | run hs | workForever hs =>
    cases hs <;> exact ⟨rfl, rfl, fun hs hc => ⟨hs, hc⟩⟩
  | cancelScan => exact ⟨rfl, rfl, fun hs hc => ⟨hs, hc⟩⟩

theorem ResultLeft.step (h : (daemon cfg tree maxScanId).Reachable m) (hl : ResultLeft m)
    (hs : (daemon cfg tree maxScanId).step m a = some m') : ResultLeft m' := by
  have hsound := sound_of_reachable h
  obtain ⟨f, rest, fs, R, hf, hst, hm', -, -⟩ := daemon_step hs
  have hsh := hsound.shape a.1
  rw [hf] at hsh
  have hother : ∀ {i : Thread cfg}, i ≠ a.1 → m'.stack i = m.stack i := fun hi => by
    rw [hm', Function.update_of_ne hi]
  have hself : m'.stack a.1 = fs ++ rest := by rw [hm', Function.update_self]
  by_cases hi : a.1 = .result
  · rw [hi] at hf hsh hself
    have hmain : m.stack .main ≠ [] := fun hnil => by simp [hl.joined hnil] at hf
    have hthread : m.shared.exportManager.resultThread = true := by
      by_contra ht
      simp [hl.thread (by simpa using ht)] at hf
    rw [← hother (by simp [hi])] at hmain
    generalize hτ : m'.shared = τ at hst
    cases hsh with
    | running pc =>
      cases hst with
      | result hst =>
        cases hst with
        | exit hc hstop =>
          exact ⟨fun _ => hself, fun hnil => absurd hnil hmain,
            fun _ => .inr (by simp [hτ, hc, hstop])⟩
        | row_missing =>
          exact ⟨fun _ => hself, fun hnil => absurd hnil hmain, fun _ => .inl (by simp [hτ])⟩
        | _ =>
          refine ⟨fun ht => ?_, fun hnil => absurd hnil hmain, fun hnil => by simp [hself] at hnil⟩
          simp [hτ, hthread] at ht
  · have hne : ∀ pc, f ≠ .result pc := by
      rintro pc rfl
      cases ha : a.1 with
      | result => exact hi ha
      | http _ => rw [ha] at hsh; exact (hsh _ List.mem_cons_self).elim
      | run => rw [ha] at hsh; cases hsh
      | worker j => rw [ha] at hsh; rcases WorkerShape.isJob hsh with hj | hj <;> cases hj
      | main => rw [ha] at hsh; cases hsh
    obtain ⟨hthread, hmissing, hqueue⟩ := hst.result_left hne
    have hres : m'.stack .result = m.stack .result := hother (Ne.symm hi)
    refine ⟨fun ht => hres ▸ hl.thread (hthread ▸ ht), fun hnil => ?_, fun hnil => ?_⟩
    · by_cases hmain : a.1 = .main
      · rw [hmain] at hf hsh hself
        rw [hself, List.append_eq_nil_iff] at hnil
        obtain ⟨rfl, rfl⟩ := hnil
        generalize m'.shared = τ at hst
        cases hsh with
        | running pc =>
          cases hst with
          | main hst =>
            cases hst with
            | join_export ht => exact hres ▸ hl.thread ht
      · exact hres ▸ hl.joined (hother (Ne.symm hmain) ▸ hnil)
    · rw [hmissing]
      exact (hl.left (hres ▸ hnil)).imp_right fun ⟨hs, hc⟩ => hqueue hs hc

theorem resultLeft_of_reachable (h : (daemon cfg tree maxScanId).Reachable m) : ResultLeft m := by
  refine h.invariant ⟨?_, ?_, ?_⟩ fun _ _ _ hn _ hs hl => hl.step hn hs
  all_goals simp [daemon, Shared.new, ExportManager.new, initialStack]

/-- Of a scan that has been accepted, nothing is left on the stacks when shutdown is over. -/
theorem frames_of_shutdown (h : (daemon cfg tree maxScanId).Reachable m)
    (hmain : m.stack .main = []) (ha : s ∈ m.shared.history.accepted) :
    ∀ f ∈ m.frames, f.IsHttp ∨ (∃ pc, f = .run pc) ∨ ∃ id pc, f = .finish id pc ∧ id ≠ s := by
  intro f hf
  have hsound := sound_of_reachable h
  obtain ⟨i, hi⟩ := Machine.mem_frames.mp hf
  have hsh := hsound.shape i
  cases i with
  | http _ => exact .inl (hsh f hi)
  | run =>
    change RunShape (m.stack .run) at hsh
    generalize hl : m.stack .run = l at hsh hi
    cases hsh with
    | exited => simp at hi
    | running pc => exact .inr (.inl ⟨pc, List.mem_singleton.mp hi⟩)
    | refused data pc =>
      simp only [List.mem_cons, List.not_mem_nil, or_false] at hi
      rcases hi with rfl | rfl
      · refine .inr (.inr ⟨_, _, rfl, fun he => ?_⟩)
        subst he
        obtain ⟨j, hj⟩ := worker_of_finish h hl ha
        cases hj
      · exact .inr (.inl ⟨_, rfl⟩)
    | canceling id =>
      simp only [List.mem_cons, List.not_mem_nil, or_false] at hi
      rcases hi with rfl | rfl
      · exact .inl trivial
      · exact .inr (.inl ⟨_, rfl⟩)
  | worker j => simp [hsound.worker_exited (by simp [hmain]) j] at hi
  | result => simp [(resultLeft_of_reachable h).joined hmain] at hi
  | main => simp [hmain] at hi

/-- When shutdown is over, an accepted scan has its row stored. -/
theorem stored_of_shutdown (h : (daemon cfg tree maxScanId).Reachable m)
    (hn : 0 < cfg.scanPoolNumThreads) (hmain : m.stack .main = [])
    (ha : s ∈ m.shared.history.accepted) : 0 < m.shared.history.storedRows s := by
  have hsound := sound_of_reachable h
  have hv := hsound.valid s
  have hrest := frames_of_shutdown h hmain ha
  have hz : ∀ w : Frame → ℕ, (∀ f, f.IsHttp → w f = 0) → (∀ pc, w (.run pc) = 0) →
      (∀ id pc, .finish id pc ∈ m.frames → id ≠ s → w (.finish id pc) = 0) →
      weigh w m.frames = 0 := by
    intro w hhttp hrun hfin
    refine weigh_eq_zero fun f hf => ?_
    rcases hrest f hf with hf' | ⟨pc, rfl⟩ | ⟨id, pc, rfl, hne⟩
    · exact hhttp f hf'
    · exact hrun pc
    · exact hfin id pc hf hne
  have hlive : m.shared.manager.scanPool.live = 0 := hsound.flags.joined (by simp [hmain])
  have hc : m.shared.manager.scanPool.jobQueue.container = [] :=
    (hsound.flags.left (by omega)).2
  have hjobs : (life s m).jobs = 0 := by
    simp only [life, lifeOf, hc, List.countP_nil, Nat.add_zero]
    refine hz _ (fun f hf => ?_) (fun _ => rfl) fun id pc _ hne => ?_
    · cases f <;> first | rfl | exact hf.elim
    · cases pc <;> simp [hne]
  have hstages : ∀ k, weigh (finishing s k) m.frames = 0 := fun k => by
    refine hz _ (fun f hf => ?_) (fun _ => rfl) fun id pc _ hne => by simp [hne]
    cases f <;> first | rfl | exact hf.elim
  have hrows : weigh (rowWeight s) m.frames = 0 := by
    refine hz _ (fun f hf => ?_) (fun _ => rfl) fun id pc hf hne => ?_
    · cases f <;> first | rfl | exact hf.elim
    · have hsealed := sealed_of_reachable h _ hf
      cases pc with
      | pushSentinel fake row => simp [hsealed.2, hne]
      | insertRow row =>
        have hid : row.scanId = id := hsealed
        simp [hid, hne]
      | _ => rfl
  have hacc : 0 < (life s m).accepted := List.count_pos_iff.mpr ha
  have hsne : s ≠ 0 := by
    obtain ⟨root, hr⟩ := submitted_of_mem_accepted h ha
    exact ((submitted_of_reachable h).proper s root hr).1
  have h₁ := hv.drain
  have h₂ := hv.closing_eq hsne
  have h₃ : (life s m).closed = weigh (rowWeight s) m.frames +
    m.shared.history.storedRows s := rfl
  have h₄ : (life s m).notifying = 0 := hstages .notifyFinished
  have h₅ : (life s m).reading = 0 := hstages .readCanceled
  have h₆ : (life s m).taking = 0 := hstages .takeTask
  rw [hjobs] at h₁
  simp only [lt_irrefl, if_false] at h₁
  omega

/-- When shutdown is over and no row has been missing, no thread of the pools is left, both queues
are empty, and every accepted scan is done or canceled, exported, and has its root released. -/
theorem shutdown_exports (h : (daemon cfg tree maxScanId).Reachable m)
    (hn : 0 < cfg.scanPoolNumThreads) (hmain : m.stack .main = [])
    (hrow : m.shared.history.rowMissing = false) :
    (∀ i, m.stack (.worker i) = []) ∧ m.stack .result = [] ∧
      m.shared.manager.scanPool.jobQueue.container = [] ∧
      m.shared.exportManager.received = m.shared.exportManager.pushed ∧
      ∀ s ∈ m.shared.history.accepted, s ∈ m.shared.exportManager.exportedMap ∧
        s ∈ m.shared.history.released ∧ (m.shared.scheduler.state s = some .done ∨
          m.shared.scheduler.state s = some .canceled) := by
  have hsound := sound_of_reachable h
  have hleft := resultLeft_of_reachable h
  have hres := hleft.joined hmain
  have hc : m.shared.exportManager.resultQueue.container = [] := by
    rcases hleft.left hres with hmiss | ⟨-, hc⟩
    · simp [hrow] at hmiss
    · exact hc
  have hlive : m.shared.manager.scanPool.live = 0 := hsound.flags.joined (by simp [hmain])
  have hpushed : m.shared.exportManager.received = m.shared.exportManager.pushed := by
    simp [ExportManager.pushed, hc]
  refine ⟨hsound.worker_exited (by simp [hmain]), hres, (hsound.flags.left (by omega)).2, hpushed,
    fun s ha => ?_⟩
  have hstored := stored_of_shutdown h hn hmain ha
  obtain ⟨ev, hev, hends⟩ := pushed_of_closed h ha (Nat.add_pos_right _ hstored)
  have hrel : s ∈ m.shared.history.released :=
    released_of_received h (by simp [BetweenEvents, hres]) hrow (hpushed ▸ hev) hends
  have hexp := (handled_of_reachable h).released s hrel
  exact ⟨hexp, hrel, over_of_exported h hexp⟩

/-- Shutdown while a scan is running. -/
theorem shutdown_exports_running :
    let m := (daemon (smallConfig 1 1 1) (fun _ => .file 0 0) 0).run
      (serve (.submit ['/', 'a']) 2 ++ steps 5 .run ++ steps 3 .main ++
        steps 10 (.worker ⟨0, Nat.one_pos⟩) ++ steps 4 .main ++ steps 1 .run ++
        steps 1 (.worker ⟨0, Nat.one_pos⟩) ++ steps 2 .main ++ steps 5 .result ++ steps 1 .main)
    1 ∈ m.shared.exportManager.exportedMap ∧ m.shared.scheduler.state 1 = some .canceled := by
  intro m
  obtain ⟨-, -, -, -, hall⟩ := shutdown_exports (System.reachable_run _ _) Nat.one_pos
    (show m.stack .main = [] by rfl) (by decide)
  exact ⟨(hall 1 (by decide)).1, by decide⟩

end ScanDaemon
