import ScanDaemon.Lifecycle.Refinement

/-! # The states of a scan

The moves between the states of a scan, and what the final states rule out.
-/

namespace ScanDaemon

open Interleave

/-- The moves of a recorded state. -/
inductive Move : RequestState → RequestState → Prop where

  | dispatch : Move .pending .dispatching

  | requeue : Move .dispatching .pending

  | run : Move .dispatching .running

  | finish_early : Move .dispatching .done

  | cancel_dispatching : Move .dispatching .canceled

  | fail : Move .dispatching .failed

  | finish : Move .running .done

  | cancel_running : Move .running .canceled

  | drop : Move .pending .dropped

/-- The states that are never left. -/
def RequestState.Terminal (st : RequestState) : Prop :=
  st = .dropped ∨ st = .canceled ∨ st = .done ∨ st = .failed

theorem Move.not_terminal {p q : RequestState} (h : Move p q) : ¬p.Terminal := by
  cases h <;> simp [RequestState.Terminal]

/-- What one step can do to the record of a scan. -/
inductive Moves : Option RequestState → Option RequestState → Prop where

  | stay (o : Option RequestState) : Moves o o

  | submit : Moves none (some .pending)

  | move {p q : RequestState} : Move p q → Moves (some p) (some q)

theorem Moves.terminal {o : Option RequestState} {st : RequestState} (h : Moves (some st) o)
    (ht : st.Terminal) : o = some st := by
  cases h with
  | stay => rfl
  | move h => exact absurd ht h.not_terminal

/-- Every step in the life of a scan moves its state as allowed. -/
theorem Life.Step.moves {s : ScanId} {v w : Life} (h : Life.Step s v w) :
    Moves v.state w.state := by
  cases h with
  | enqueue hst => simp only [hst]; exact .submit
  | drop hst => simp only [hst]; exact .move .drop
  | cancel hst =>
    rcases hst with hst | hst <;> simp only [hst]
    · exact .move .cancel_running
    · exact .move .cancel_dispatching
  | dispatch hst => simp only [hst]; exact .move .dispatch
  | commit_running _ hst => simp only [hst]; exact .move .run
  | commit_pending _ hst => simp only [hst]; exact .move .requeue
  | commit_failed _ hst => simp only [hst]; exact .move .fail
  | notify_finished =>
    simp only
    rcases finishedState_cases v.state with ⟨he, hst | hst⟩ | ⟨he, _⟩ <;> rw [he]
    · rw [hst]; exact .move .finish
    · rw [hst]; exact .move .finish_early
    · exact .stay _
  | shutdown =>
    simp only
    rcases shutdownState_cases v.state with ⟨he, hst | hst | hst⟩ | ⟨he, hst⟩ | ⟨he, _⟩ <;> rw [he]
    · rw [hst]; exact .move .cancel_running
    · rw [hst]; exact .move .cancel_dispatching
    · rw [hst]; exact .stay _
    · rw [hst]; exact .move .drop
    · exact .stay _
  | _ => exact .stay _

variable {cfg : Config} {tree : ScanId → FsNode} {maxScanId : ScanId} {m m' : DaemonState cfg}
  {a : Thread cfg × Input} {s : ScanId} {st : RequestState}

theorem moves_of_step (h : (daemon cfg tree maxScanId).Reachable m)
    (hs : (daemon cfg tree maxScanId).step m a = some m') (s : ScanId) :
    Moves (m.shared.scheduler.state s) (m'.shared.scheduler.state s) := by
  rcases Relation.reflGen_iff _ _ _ |>.mp ((sound_of_reachable h).lives hs s) with he | hv
  · have hst : (life s m').state = (life s m).state := by rw [he]
    simp only [life, lifeOf] at hst
    rw [hst]
    exact .stay _
  · exact hv.moves

/-- Once a scan is in a terminal state, it stays there for the rest of the run. -/
theorem terminal_stays (h : (daemon cfg tree maxScanId).Reachable m)
    (hst : m.shared.scheduler.state s = some st) (ht : st.Terminal)
    (hl : (daemon cfg tree maxScanId).Leads m m') : m'.shared.scheduler.state s = some st := by
  refine hl.stable (P := fun m => m.shared.scheduler.state s = some st) h hst ?_
  intro n a n' hn hs hst
  have hm := moves_of_step hn hs s
  rw [hst] at hm
  exact hm.terminal ht

/-- A frame of `run` is the one in the loop of its thread. -/
theorem WellFormed.runPc_eq (h : WellFormed m) {pc : RunPc} (hf : .run pc ∈ m.frames) :
    runPc (m.stack .run) = some pc := by
  obtain ⟨i, hi⟩ := Machine.mem_frames.mp hf
  have hsh := h.shape i
  cases i with
  | http _ => exact (hsh _ hi).elim
  | run =>
    change RunShape (m.stack .run) at hsh
    generalize m.stack .run = l at hsh hi
    cases hsh <;> simp at hi <;> simp [runPc, hi]
  | worker _ =>
    change WorkerShape (m.stack (.worker _)) at hsh
    generalize m.stack (.worker _) = l at hsh hi
    cases hsh with
    | exited => simp at hi
    | working hl => simp at hi; exact (hl _ hi).elim
  | result =>
    change ResultShape (m.stack .result) at hsh
    generalize m.stack .result = l at hsh hi
    cases hsh <;> simp at hi
  | main =>
    change MainShape (m.stack .main) at hsh
    generalize m.stack .main = l at hsh hi
    cases hsh <;> simp at hi

/-- A frame of `run` tells the phase of every scan. -/
theorem WellFormed.runPhase_eq (h : WellFormed m) {pc : RunPc} (hf : .run pc ∈ m.frames)
    (s : ScanId) : runPhase s (m.stack .run) = pc.phase s := by
  rw [runPhase, h.runPc_eq hf]
  rfl

/-- A dropped scan is not given to `start_new_scan`. -/
theorem not_started_of_dropped (h : (daemon cfg tree maxScanId).Reachable m)
    (hst : m.shared.scheduler.state s = some .dropped) (root : Path) :
    .run (.start ⟨s, root⟩) ∉ m.frames := by
  intro hf
  have hm := sound_of_reachable h
  have hp : (life s m).phase = .start := by
    simp [life, lifeOf, hm.runPhase_eq hf, RunPc.phase]
  have hb := ((hm.valid s).before (.inr (.inr (.inl hst)))).1
  simp [hp] at hb

theorem accepted_once (h : (daemon cfg tree maxScanId).Reachable m) (s : ScanId) :
    m.shared.history.accepted.count s ≤ 1 := by
  have ho := ((sound_of_reachable h).valid s).once
  simp only [life, lifeOf] at ho
  omega

/-- A cancel request for a pending scan drops it. -/
theorem dropped_of_cancel {rest : List Frame} (hs : (daemon cfg tree maxScanId).step m a = some m')
    (hf : m.stack a.1 = .http (.cancel s) :: rest)
    (hst : m.shared.scheduler.state s = some .pending) :
    m'.shared.scheduler.state s = some .dropped := by
  obtain ⟨f, rest', fs, R, hf', hstep, -⟩ := daemon_step hs
  obtain ⟨rfl, rfl⟩ := List.cons.inj (hf'.symm.trans hf)
  generalize m'.shared = τ at hstep ⊢
  cases hstep with
  | http hstep =>
    cases hstep with
    | cancel_ignored hp => exact absurd hst hp
    | cancel_running hr => simp [hst] at hr
    | cancel_pending => simp

theorem terminal_of_stopped (h : (daemon cfg tree maxScanId).Reachable m)
    (hstop : m.shared.scheduler.stopFlag = true) (hst : m.shared.scheduler.state s = some st) :
    st.Terminal := by
  have hs := ((sound_of_reachable h).valid s).stopped hstop
  simp only [life, lifeOf, hst, ne_eq, Option.some.injEq] at hs
  cases st <;> simp_all [RequestState.Terminal]

/-- The critical section of `shutdown` sets the flag. -/
theorem stopped_of_shutdown (hs : (daemon cfg tree maxScanId).step m a = some m')
    (htop : m.top a.1 = some (.main .shutdown)) : m'.shared.scheduler.stopFlag = true := by
  obtain ⟨f, rest, fs, R, hf, hst, -⟩ := daemon_step hs
  rw [Machine.top_of_stack hf, Option.some.injEq] at htop
  subst htop
  generalize m'.shared = σ' at hst ⊢
  cases hst with
  | main hst => cases hst; rfl

/-- The states of the scans in every run: the moves are the allowed ones, the terminal
states are final, no scan is accepted twice, a pending scan that is canceled is never
started again, and after shutdown every scan is in a terminal state for good. -/
theorem scan_states (h : (daemon cfg tree maxScanId).Reachable m) :
    (∀ a m', (daemon cfg tree maxScanId).step m a = some m' →
      ∀ s, Moves (m.shared.scheduler.state s) (m'.shared.scheduler.state s)) ∧
    (∀ s st, m.shared.scheduler.state s = some st → st.Terminal →
      ∀ m', (daemon cfg tree maxScanId).Leads m m' →
        m'.shared.scheduler.state s = some st) ∧
    (∀ s, m.shared.history.accepted.count s ≤ 1) ∧
    (∀ a m' s rest, (daemon cfg tree maxScanId).step m a = some m' →
      m.stack a.1 = .http (.cancel s) :: rest →
      m.shared.scheduler.state s = some .pending →
      (m.shared.scheduler.cancel s).1 = true ∧
        ∀ m'', (daemon cfg tree maxScanId).Leads m' m'' →
          ∀ root, .run (.start ⟨s, root⟩) ∉ m''.frames) ∧
    (m.shared.scheduler.stopFlag = true →
      ∀ s st, m.shared.scheduler.state s = some st → st.Terminal ∧
        ∀ m', (daemon cfg tree maxScanId).Leads m m' →
          m'.shared.scheduler.state s = some st) := by
  refine ⟨fun a m' hs => moves_of_step h hs, fun s st hst ht m' => terminal_stays h hst ht,
    accepted_once h, fun a m' s rest hs hf hst => ⟨?_, fun m'' hl root => ?_⟩,
    fun hstop s st hst => ?_⟩
  · simp [Scheduler.cancel, hst]
  · have hm' := h.step trivial hs
    have hd := terminal_stays hm' (dropped_of_cancel hs hf hst) (.inl rfl) hl
    exact not_started_of_dropped (hm'.leads hl) hd root
  · have ht := terminal_of_stopped h hstop hst
    exact ⟨ht, fun m' => terminal_stays h hst ht⟩

/-- A scan that is canceled while it is dispatched stays canceled. -/
theorem scan_states_canceled :
    let D := daemon (smallConfig 1 1 1) (fun _ => .file 0 0) 0
    let m := D.run (serve (.submit ['/', 'a']) 2 ++ steps 2 .run ++ serve (.cancel 1) 2)
    m.shared.scheduler.state 1 = some .canceled ∧
      ∀ m', D.Leads m m' → m'.shared.scheduler.state 1 = some .canceled :=
  ⟨by decide, (scan_states (System.reachable_run _ _)).2.1 1 .canceled (by decide)
    (.inr (.inl rfl))⟩

end ScanDaemon
