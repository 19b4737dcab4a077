import ScanDaemon.Lifecycle.Outcome

/-! # No cancel is lost

`Scheduler::cancel` marks a scan that is dispatched or running and then looks
for it in the registry of the manager. When the scan is not registered yet,
`run` calls `cancel_scan` itself after its commit. Between them the two calls
reach the context of every scan that the manager accepts.
-/

namespace ScanDaemon

open Interleave

variable {cfg : Config} {tree : ScanId → FsNode} {s : ScanId} {maxScanId : ScanId}
  {m m' m'' : DaemonState cfg} {a : Thread cfg × Input}

/-- No thread is in a call of `Manager::cancel_scan` for the scan, or about to make one. -/
def CancelReturned (m : DaemonState cfg) (s : ScanId) : Prop :=
  ∀ i, ∀ g ∈ m.stack i, ¬g.Cancels s

instance (m : DaemonState cfg) (s : ScanId) : Decidable (CancelReturned m s) :=
  inferInstanceAs (Decidable (∀ i, ∀ g ∈ m.stack i, ¬g.Cancels s))

/-- `run` is not between the head of its loop and the commit for the scan. -/
def DispatchCommitted (m : DaemonState cfg) (s : ScanId) : Prop :=
  ∀ data ∈ runData (m.stack .run), data.scanId ≠ s

instance (m : DaemonState cfg) (s : ScanId) : Decidable (DispatchCommitted m s) :=
  inferInstanceAs (Decidable (∀ data ∈ runData _, _))

theorem CancelReturned.cancels (h : CancelReturned m s) : (life s m).cancels = 0 := by
  by_contra hne
  obtain ⟨g, hg, hw⟩ := exists_of_weigh_pos (Nat.pos_of_ne_zero hne)
  obtain ⟨i, hi⟩ := Machine.mem_frames.mp hg
  exact h i g hi (Frame.cancels_of_pos hw)

theorem DispatchCommitted.phase (h : DispatchCommitted m s) : (life s m).phase = .away := by
  by_contra hne
  obtain ⟨data, hd, hid⟩ := mem_runData_of_phase hne
  exact h data hd hid

/-- An accepted scan leaves the registry when its last job is over. -/
theorem Life.Valid.drained_of_unregistered {v : Life} (h : v.Valid s) (ha : 0 < v.accepted)
    (hr : v.registered = false) : 0 < v.drained := by
  have h₁ := h.registry
  simp only [hr, Bool.toNat_false] at h₁
  omega

/-- The context of a canceled scan is canceled, or the manager has no job of it. -/
theorem canceled_reaches (h : (daemon cfg tree maxScanId).Reachable m)
    (hst : m.shared.scheduler.state s = some .canceled) (hret : CancelReturned m s)
    (hcom : DispatchCommitted m s) :
    s ∉ m.shared.history.accepted ∨ (m.shared.manager.context s).canceled = true ∨
      s ∈ m.shared.history.drained := by
  have hv := (sound_of_reachable h).valid s
  by_cases ha : s ∈ m.shared.history.accepted
  · have hpos : 0 < (life s m).accepted := List.count_pos_iff.mpr ha
    have hone := hv.once
    right
    cases hr : (life s m).registered with
    | false => exact .inr (List.count_pos_iff.mp (hv.drained_of_unregistered hpos hr))
    | true =>
      rcases hv.reaches hst (by omega) hr with hc | hc | hp
      · exact .inl hc
      · exact absurd hret.cancels (by omega)
      · exact absurd hcom.phase hp
  · exact .inl ha

/-- A call of `cancel` for a scan that is running or being dispatched takes effect: from the time
that the call has returned and `run` is through with the dispatch, the manager has not accepted
the scan, or its context is canceled, or its last job is over. -/
theorem cancel_not_lost (h : (daemon cfg tree maxScanId).Reachable m)
    (htop : m.top a.1 = some (.http (.cancel s)))
    (hst : m.shared.scheduler.state s = some .running ∨
      m.shared.scheduler.state s = some .dispatching)
    (hs : (daemon cfg tree maxScanId).step m a = some m')
    (hl : (daemon cfg tree maxScanId).Leads m' m'') (hret : CancelReturned m'' s)
    (hcom : DispatchCommitted m'' s) :
    (m.shared.scheduler.cancel s).1 = true ∧
      (s ∉ m''.shared.history.accepted ∨ (m''.shared.manager.context s).canceled = true ∨
        s ∈ m''.shared.history.drained) := by
  have hm' : (daemon cfg tree maxScanId).Reachable m' := .step h trivial hs
  have hcan : m'.shared.scheduler.state s = some .canceled := by
    obtain ⟨f, rest, fs, R, hf, hstep, -⟩ := daemon_step hs
    rw [Machine.top_of_stack hf, Option.some.injEq] at htop
    subst htop
    generalize m'.shared = σ' at hstep ⊢
    cases hstep with
    | http hh =>
      cases hh with
      | cancel_ignored _ hr hd => exact absurd hst (not_or.mpr ⟨hr, hd⟩)
      | cancel_running => simp
      | cancel_pending hp => rw [hp] at hst; simp at hst
  refine ⟨?_, canceled_reaches (hm'.leads hl) ?_ hret hcom⟩
  · rcases hst with hst | hst <;> simp [Scheduler.cancel, hst]
  · exact terminal_stays hm' hcan (.inr (.inl rfl)) hl

/-- A scan is canceled after `run` has marked it `DISPATCHING` and before it is registered; the
call of `run` after the commit reaches the context. -/
theorem cancel_not_lost_window :
    let D := daemon (smallConfig 1 1 1) (fun _ => .file 0 0) 0
    let before := serve (.submit ['/', 'a']) 2 ++ steps 1 .run ++ serve (.cancel 1) 0
    let call := steps 1 (.http ⟨0, Nat.one_pos⟩)
    let after := steps 1 (.http ⟨0, Nat.one_pos⟩) ++ steps 5 .run
    (D.run before).shared.scheduler.state 1 = some .dispatching ∧
      (D.run before).shared.manager.registry.lookup 1 = none ∧
      ((D.run (before ++ call ++ after)).shared.manager.context 1).canceled = true := by
  intro D before call after
  refine ⟨by decide, by decide, ?_⟩
  have hs : D.exec call (D.run before) = some (D.run (before ++ call)) :=
    System.exec_run (by decide)
  have hl := System.leads_of_exec
    (System.exec_run (T := D) (by decide : (D.exec (before ++ call ++ after) D.init).isSome = true))
  obtain ⟨t, ht, he⟩ := Option.bind_eq_some_iff.mp hs
  cases he
  have hc := (cancel_not_lost (System.reachable_run D before) (by rfl) (.inr (by decide)) ht hl
    (by decide) (by decide)).2
  exact (hc.resolve_left (by decide)).resolve_right (by decide)

/-- The same scan before that call of `run`: the dispatch is committed and `cancel` has returned,
but the context of the accepted scan is not canceled yet. -/
theorem cancel_awaits_run :
    let D := daemon (smallConfig 1 1 1) (fun _ => .file 0 0) 0
    let before := serve (.submit ['/', 'a']) 2 ++ steps 1 .run ++ serve (.cancel 1) 0
    let m := D.run (before ++ steps 2 (.http ⟨0, Nat.one_pos⟩) ++ steps 4 .run)
    D.Reachable m ∧ (D.run before).top (.http ⟨0, Nat.one_pos⟩) = some (.http (.cancel 1)) ∧
      (D.run before).shared.scheduler.state 1 = some .dispatching ∧
      ((D.run before).shared.scheduler.cancel 1).1 = true ∧
      m.stack (.http ⟨0, Nat.one_pos⟩) = [.http .worker] ∧ DispatchCommitted m 1 ∧
      1 ∈ m.shared.history.accepted ∧ (m.shared.manager.context 1).canceled = false ∧
      1 ∉ m.shared.history.drained :=
  ⟨System.reachable_run _ _, by rfl, by decide, by decide, by rfl, by decide, by decide,
    by decide, by decide⟩

end ScanDaemon
