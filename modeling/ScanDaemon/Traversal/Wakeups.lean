import ScanDaemon.Traversal.QueueWaits
import ScanDaemon.Traversal.Released

/-! # The traversal with its waits

As long as every notification at the result queue wakes a thread that has
something to do if such a thread waits, the workers and the result thread never
all sleep beside a scan that is not drained, and what they do is bounded by the
trees of the accepted scans; every scan that the pool has taken can be exported.
If a notification goes to the wrong thread, they may all sleep for ever.
-/

namespace ScanDaemon

open Interleave

variable {cfg : Config} {tree : ScanId → FsNode} {σ σ' : Shared cfg} {x : Input} {f : Frame}
  {fs : List Frame} {maxScanId : ScanId} {m : DaemonState cfg} {w w' : SleepState cfg}
  {a : Thread cfg × SleepAct cfg} {i : Thread cfg} {s : ScanId}

/-- What makes up the traversal: a worker or the result thread executes a frame, and threads go to
sleep and notify each other. -/
def SleepAct.Works (i : Thread cfg) : SleepAct cfg → Prop
  | .run _ => i.Traverses
  | .sleep | .notify _ => True
  | .wake => False

instance (i : Thread cfg) : DecidablePred (SleepAct.Works i)
  | .run _ => inferInstanceAs (Decidable i.Traverses)
  | .sleep | .notify _ => .isTrue trivial
  | .wake => .isFalse id

def SleepAct.IsWake : SleepAct cfg → Prop
  | .wake => True
  | _ => False

instance : DecidablePred (@SleepAct.IsWake cfg)
  | .wake => .isTrue trivial
  | .run _ | .sleep | .notify _ => .isFalse id

/-- The traversal has come to rest: it has no step left that heeds the waiting threads. -/
def Quiet (tree : ScanId → FsNode) (w : SleepState cfg) : Prop :=
  ∀ a, a.2.Works a.1 → Heeded w a → w.step tree a = none

theorem SleepAct.Works.not_isWake {act : SleepAct cfg} (h : act.Works i) : ¬act.IsWake := by
  cases act <;> first | exact id | exact h.elim

/-- The step neither stops the pool nor ends the result thread for want of a row. -/
def Peaceful (w : SleepState cfg) (a : Thread cfg × SleepAct cfg) : Prop :=
  match a.2 with
  | .run x => Undisturbed w.machine (a.1, x)
  | .sleep | .notify _ | .wake => True

instance (w : SleepState cfg) : (a : Thread cfg × SleepAct cfg) → Decidable (Peaceful w a)
  | (i, .run x) => inferInstanceAs (Decidable (Undisturbed w.machine (i, x)))
  | (_, .sleep) | (_, .notify _) | (_, .wake) => .isTrue trivial

/-- A traversal of which every thread waits has no step. -/
theorem SleepState.step_eq_none
    (hresults : ∀ i, ((w.results i).isFree || (w.results i).isWaiting) = true)
    (hscans : ∀ i, ((w.scans i).isFree || (w.scans i).isWaiting) = true)
    (hwait : ∀ i, i.Traverses → w.isFree i = false)
    (hother : ∀ i, ¬i.Traverses → w.isBlocked tree i = false) (h : a.2.Works a.1) :
    w.step tree a = none := by
  by_contra hne
  obtain ⟨w', hs⟩ := Option.ne_none_iff_exists'.mp hne
  obtain ⟨i, act⟩ := a
  cases move_of_step hs with
  | run hfree => exact absurd hfree (by simp [hwait i h])
  | sleep hfree hb =>
    by_cases hi : i.Traverses
    · exact absurd hfree (by simp [hwait i hi])
    · exact absurd hb (by simp [hother i hi])
  | notify_results hn =>
    obtain ⟨c, n, hi⟩ := Monitor.notifying_of_notify hn
    have hst := hresults i
    rw [show w.results i = .notifying c n from hi] at hst
    cases hst
  | notify_scans hn =>
    obtain ⟨c, n, hi⟩ := Monitor.notifying_of_notify hn
    have hst := hscans i
    rw [show w.scans i = .notifying c n from hi] at hst
    cases hst
  | wake_results | wake_scans => exact h.elim

/-! ## Who works at the queues -/

/-- At the result queue there are only workers and the result thread. -/
theorem traverses_of_resultCall (h : (daemon cfg tree maxScanId).Reach Undisturbed m)
    {c : QueueCall FileEvent} (hc : (m.top i).bind Frame.resultCall = some c) : i.Traverses := by
  have hb := busy_of_reach h
  obtain ⟨f, hf, hc⟩ := Option.bind_eq_some_iff.mp hc
  obtain ⟨rest, hst⟩ := List.head?_eq_some_iff.mp hf
  have hsh := (sound_of_reachable h.reachable).shape i
  rw [hst] at hsh
  cases i with
  | worker _ | result => trivial
  | http _ =>
    have hhttp := hsh f List.mem_cons_self
    cases f <;> first | exact hhttp.elim | cases hc
  | run =>
    cases f with
    | finish id pc => exact absurd (hst ▸ List.mem_cons_self) (hb.run id pc)
    | workerJob data pc | result pc | main pc => cases hsh
    | _ => cases hc
  | main =>
    cases f with
    | main pc =>
      have hrank := hb.rank
      rw [hst] at hrank
      cases pc with
      | stopExport => simp [MainPc.rank] at hrank
      | _ => cases hc
    | workerJob data pc | result pc | finish id pc => cases hsh
    | _ => cases hc

theorem traverses_of_workForever (h : (daemon cfg tree maxScanId).Reachable m)
    (hf : m.top i = some .workForever) : i.Traverses := by
  obtain ⟨rest, hst⟩ := List.head?_eq_some_iff.mp hf
  have hsh := (sound_of_reachable h).shape i
  rw [hst] at hsh
  cases i with
  | worker _ | result => trivial
  | http _ => exact (hsh .workForever List.mem_cons_self).elim
  | run | main => cases hsh

/-- At the queue of the scan pool there are the workers and the thread that pushes root jobs. -/
theorem push_of_scanCall (h : (daemon cfg tree maxScanId).Reach Undisturbed m)
    (hok : Undisturbed m (i, x)) (hi : ¬i.Traverses) {c : QueueCall ScanData}
    (hf : m.top i = some f) (hc : f.scanCall tree m.shared = some c) :
    ∃ data, f = .run (.push data) := by
  cases f with
  | run pc => cases pc <;> first | exact ⟨_, rfl⟩ | cases hc
  | workForever => exact absurd (traverses_of_workForever h.reachable hf) hi
  | workerJob data pc =>
    obtain ⟨rest, hst⟩ := List.head?_eq_some_iff.mp hf
    have hsh := (sound_of_reachable h.reachable).shape i
    rw [hst] at hsh
    obtain ⟨-, j, rfl⟩ := hsh.worker
    exact (hi trivial).elim
  | main pc => cases pc <;> first | exact (hok _ hf trivial).elim | cases hc
  | _ => cases hc

/-- A root job that is pushed is accepted, or its push notifies nobody. -/
theorem accepted_of_push {data : PendingRoot}
    (h : exec tree σ x (.run (.push data)) = some (σ', fs)) :
    σ'.history.accepted = data.scanId :: σ.history.accepted ∨
      σ'.history.accepted = σ.history.accepted ∧ ∃ q,
        (QueueCall.tryPush (rootJob tree data)).body σ.manager.scanPool.jobQueue =
          some (q, none) := by
  simp only [exec, execRun, Manager.submit] at h
  rcases ht : σ.manager.scanPool.jobQueue.tryPush (rootJob tree data) with ⟨res, q⟩
  rw [ht] at h
  cases res with
  | pushed => cases h; exact .inl rfl
  | full | shutdown => cases h; exact .inr ⟨rfl, q, by simp only [QueueCall.body, ht]⟩

/-! ## How much there is to do -/

/-- Bounds what the traversal can still do. -/
def SleepState.effort (w : SleepState cfg) : ℕ :=
  3 * work w.machine.shared w.machine.frames + Monitor.effort w.atResults +
    Monitor.effort w.atScans

/-- The effort that the accepted scans have brought in. -/
def SleepState.credit (tree : ScanId → FsNode) (w : SleepState cfg) : ℕ :=
  (w.machine.shared.history.accepted.map fun s => 90 * (tree s).size + 2).sum

theorem SleepState.credit_eq : w.credit tree = 3 * brought tree w.machine.shared.history.accepted +
    2 * w.machine.shared.history.accepted.length := by
  unfold credit brought
  induction w.machine.shared.history.accepted with
  | nil => rfl
  | cons s l ih =>
    simp only [List.map_cons, List.sum_cons, List.length_cons, ih]
    omega

/-- No thread is about to notify everybody. -/
theorem notice_eq_one (h : (sleepingDaemon cfg tree maxScanId).Reach Heeded w) :
    (∀ i c n, w.results i = .notifying c n → n = .one) ∧
      ∀ i c n, w.scans i = .notifying c n → n = .one := by
  have hund := undisturbed_of_heeded h
  have hsound := sound_of_reachable hund.reachable
  have hb := busy_of_reach hund
  obtain ⟨hres, hscan⟩ := reach_monitors h
  constructor
  · intro i c n hi
    cases n with
    | one => rfl
    | all =>
      have hstop : w.machine.shared.exportManager.resultQueue.stopFlag = true :=
        stopped_of_notifying hres hi
      rw [hb.results_open hsound] at hstop
      cases hstop
  · intro i c n hi
    cases n with
    | one => rfl
    | all =>
      have hstop : w.machine.shared.manager.scanPool.jobQueue.stopFlag = true :=
        stopped_of_notifying hscan hi
      rw [hb.pool_open hsound] at hstop
      cases hstop

variable (tree) in
/-- A thread that takes a step comes to notify at one queue at most. -/
theorem SleepState.waits_run (hfree : w.isFree i = true) :
    Monitor.effort ((resultMonitor cfg).enter w.atResults i (w.resultCall i)) +
        Monitor.effort ((scanMonitor cfg).enter w.atScans i (w.scanCall tree i)) ≤
      Monitor.effort w.atResults + Monitor.effort w.atScans + 2 := by
  obtain ⟨hfr, hfs⟩ := Bool.and_eq_true_iff.mp hfree
  by_cases hc : w.resultCall i = none
  · have hs : Monitor.effort ((scanMonitor cfg).enter w.atScans i (w.scanCall tree i)) ≤
      Monitor.effort w.atScans + 2 := Monitor.effort_enter hfs
    rw [hc, Monitor.enter_none]
    omega
  · have hr : Monitor.effort ((resultMonitor cfg).enter w.atResults i (w.resultCall i)) ≤
      Monitor.effort w.atResults + 2 := Monitor.effort_enter hfr
    rw [scanCall_eq_none hc, Monitor.enter_none]
    omega

/-- A thread outside the traversal comes to notify only when its root job is accepted. -/
theorem SleepState.waits_run_other (h : (daemon cfg tree maxScanId).Reach Undisturbed w.machine)
    (hok : Undisturbed w.machine (i, x)) (hfree : w.isFree i = true) (hi : ¬i.Traverses)
    (hm : w.machine.step (exec tree) i x = some m) :
    Monitor.effort ((resultMonitor cfg).enter w.atResults i (w.resultCall i)) +
        Monitor.effort ((scanMonitor cfg).enter w.atScans i (w.scanCall tree i)) +
        2 * w.machine.shared.history.accepted.length ≤
      Monitor.effort w.atResults + Monitor.effort w.atScans +
        2 * m.shared.history.accepted.length := by
  obtain ⟨f, fs, hf, he⟩ := exists_top hm
  obtain ⟨-, hfs⟩ := Bool.and_eq_true_iff.mp hfree
  have hnone : w.resultCall i = none := by
    by_contra hne
    obtain ⟨c, hc⟩ := Option.ne_none_iff_exists'.mp hne
    exact hi (traverses_of_resultCall h hc)
  have hwaits := waits_run tree hfree
  rw [hnone, Monitor.enter_none] at hwaits ⊢
  cases hc : f.scanCall tree w.machine.shared with
  | none =>
    have hcall : w.scanCall tree i = none := by
      simp only [scanCall, hf, Option.bind_some, hc]
    rw [hcall, Monitor.enter_none]
    rcases (step_of_exec he).accepted_eq with ha | ⟨data, rfl, -⟩
    · rw [ha]
    · cases hc
  | some c =>
    obtain ⟨data, rfl⟩ := push_of_scanCall h hok hi hf hc
    rcases accepted_of_push he with ha | ⟨ha, q, hq⟩
    · rw [ha, List.length_cons]
      omega
    · have hcall : w.scanCall tree i = some (.tryPush (rootJob tree data)) := by
        simp only [scanCall, hf, Option.bind_some]
        rfl
      have heq : Monitor.effort ((scanMonitor cfg).enter w.atScans i (w.scanCall tree i)) =
          Monitor.effort w.atScans := by
        refine Monitor.effort_enter_silent hfs fun c hc => ?_
        rw [hcall] at hc
        cases hc
        exact ⟨q, hq⟩
      rw [ha, heq]

theorem SleepState.effort_run (h : (sleepingDaemon cfg tree maxScanId).Reach Heeded w)
    (hok : Undisturbed w.machine (i, x)) (hfree : w.isFree i = true)
    (hm : w.machine.step (exec tree) i x = some m) :
    (if i.Traverses then 1 else 0) +
        ({ w.enter tree i with machine := m } : SleepState cfg).effort + w.credit tree ≤
      w.effort + ({ w.enter tree i with machine := m } : SleepState cfg).credit tree := by
  have hund := undisturbed_of_heeded h
  have hstep : (daemon cfg tree maxScanId).step w.machine (i, x) = some m := hm
  have hwork := work_of_step hund hok hstep
  rw [credit_eq, credit_eq, effort, effort, atResults_run hm, atScans_run hm]
  dsimp only
  by_cases hi : i.Traverses
  · -- one step less to do pays for the notification and the sleep that may come of it
    have hwaits := waits_run tree hfree
    have hacc := accepted_of_traverses hund.reachable hi hstep
    rw [hacc] at hwork ⊢
    simp only [hi, if_true] at hwork ⊢
    omega
  · have hwaits := waits_run_other hund hok hfree hi hm
    simp only [hi, if_false, Nat.zero_add] at hwork ⊢
    omega

theorem SleepState.effort_step (h : (sleepingDaemon cfg tree maxScanId).Reach Heeded w)
    (hok : Heeded w a) (hs : (sleepingDaemon cfg tree maxScanId).step w a = some w') :
    (if a.2.Works a.1 then 1 else 0) + w'.effort + w.credit tree ≤
      w.effort + w'.credit tree + if a.2.IsWake then 1 else 0 := by
  obtain ⟨hres, hscan⟩ := notice_eq_one h
  obtain ⟨i, act⟩ := a
  have hmove : w.Move tree i act w' := move_of_step hs
  dsimp only
  -- a step that leaves the machine alone changes the effort at the queues only
  have hwaits : w'.machine = w.machine →
      (if act.Works i then 1 else 0) + Monitor.effort w'.atResults + Monitor.effort w'.atScans ≤
        Monitor.effort w.atResults + Monitor.effort w.atScans + (if act.IsWake then 1 else 0) →
      (if act.Works i then 1 else 0) + w'.effort + w.credit tree ≤
        w.effort + w'.credit tree + if act.IsWake then 1 else 0 := by
    intro hm he
    rw [effort, effort, credit, credit, hm]
    omega
  cases hmove with
  | run hfree hm => exact effort_run h hok hfree hm
  | sleep hfree hb =>
    obtain ⟨hfr, hfs⟩ := Bool.and_eq_true_iff.mp hfree
    refine hwaits rfl ?_
    simp only [SleepAct.Works, SleepAct.IsWake, ↓reduceIte]
    rw [atResults_sleep hb, atScans_sleep hb]
    rcases blocked_cases hb with ⟨hn, c, hc, hbody⟩ | ⟨hn, c, hc, hbody⟩
    · have hlow := Monitor.effort_enter_blocked hfr hbody
      rw [hc, hn, Monitor.enter_none]
      omega
    · have hlow := Monitor.effort_enter_blocked hfs hbody
      rw [hc, hn, Monitor.enter_none]
      omega
  | @notify_results target t hn =>
    obtain ⟨c, n, hi⟩ := Monitor.notifying_of_notify hn
    obtain rfl := hres i c n hi
    have hlow := Monitor.effort_notify hi hn
    refine hwaits rfl ?_
    simp only [SleepAct.Works, SleepAct.IsWake, ↓reduceIte]
    rw [atResults_with (Monitor.of_notify hn).1, atScans_with_results]
    omega
  | @notify_scans target t hn =>
    obtain ⟨c, n, hi⟩ := Monitor.notifying_of_notify hn
    obtain rfl := hscan i c n hi
    have hlow := Monitor.effort_notify hi hn
    refine hwaits rfl ?_
    simp only [SleepAct.Works, SleepAct.IsWake, ↓reduceIte]
    rw [atScans_with (Monitor.of_notify hn).1, atResults_with_scans]
    omega
  | @wake_results t hn =>
    have hwoken := Monitor.effort_wake hn
    refine hwaits rfl ?_
    simp only [SleepAct.Works, SleepAct.IsWake, ↓reduceIte]
    rw [atResults_with (Monitor.of_wake hn).1, atScans_with_results]
    omega
  | @wake_scans t hn =>
    have hwoken := Monitor.effort_wake hn
    refine hwaits rfl ?_
    simp only [SleepAct.Works, SleepAct.IsWake, ↓reduceIte]
    rw [atScans_with (Monitor.of_wake hn).1, atResults_with_scans]
    omega

theorem SleepState.effort_initial : (sleepingDaemon cfg tree maxScanId).init.effort =
    2 * Fintype.card (Thread cfg) := by
  have hout : ∀ {C : Type}, Monitor.tally Status.effort
      (fun _ : Thread cfg => (.outside : Status C)) = Fintype.card (Thread cfg) := by
    intro C
    simp [Monitor.tally, Status.effort]
  have hwork : work (sleepingDaemon cfg tree maxScanId).init.machine.shared
      (sleepingDaemon cfg tree maxScanId).init.machine.frames = 0 :=
    @work_initial cfg tree maxScanId
  have hres : Monitor.effort (sleepingDaemon cfg tree maxScanId).init.atResults = _ := hout
  have hscan : Monitor.effort (sleepingDaemon cfg tree maxScanId).init.atScans = _ := hout
  rw [effort, hwork, hres, hscan]
  omega

/-- The traversal itself accepts no scan. -/
theorem accepted_of_works (h : (sleepingDaemon cfg tree maxScanId).Reach Heeded w)
    (hw : a.2.Works a.1) (hs : (sleepingDaemon cfg tree maxScanId).step w a = some w') :
    w'.machine.shared.history.accepted = w.machine.shared.history.accepted := by
  obtain ⟨i, act⟩ := a
  cases SleepState.move_of_step hs with
  | @run x m _ hm =>
    exact accepted_of_traverses (a := (i, x)) (undisturbed_of_heeded h).reachable hw hm
  | _ => rfl

theorem accepted_of_exec {as : List (Thread cfg × SleepAct cfg)}
    (h : (sleepingDaemon cfg tree maxScanId).Reachable w)
    (he : (sleepingDaemon cfg tree maxScanId).exec as w = some w')
    (ha : s ∈ w.machine.shared.history.accepted) : s ∈ w'.machine.shared.history.accepted := by
  refine (System.leads_of_exec he).stable
    (P := fun w : SleepState cfg => s ∈ w.machine.shared.history.accepted) h ha ?_
  intro n a n' _ hs hk
  obtain ⟨i, act⟩ := a
  cases SleepState.move_of_step hs with
  | run _ hm =>
    obtain ⟨f, fs, -, hx⟩ := SleepState.exists_top hm
    exact (step_of_exec hx).accepted_subset hk
  | _ => exact hk

/-! ## The traversal at rest -/

/-- A job waits at the result queue only to push, and the result thread only to pop. -/
theorem resultCall_cases (hf : f.IsJob ∨ f = .workForever ∨ ∃ pc, f = .result pc)
    {c : QueueCall FileEvent} (hc : f.resultCall = some c) : c = .pop ∨ ∃ item, c = .push item := by
  cases f with
  | workerJob data pc => cases pc <;> cases hc; exact .inr ⟨_, rfl⟩
  | finish id pc => cases pc <;> cases hc; exact .inr ⟨_, rfl⟩
  | result pc => cases pc <;> cases hc; exact .inl rfl
  | workForever => cases hc
  | http pc | cancelScan id | run pc | main pc => simp [Frame.IsJob] at hf

/-- When the traversal has come to rest, nobody has to notify: the system can always pick a thread
that heeds the waiting ones. -/
theorem not_notifying_of_quiet (h : (sleepingDaemon cfg tree maxScanId).Reach Heeded w)
    (hquiet : Quiet tree w) :
    (∀ i c n, w.results i ≠ .notifying c n) ∧ ∀ i c n, w.scans i ≠ .notifying c n := by
  obtain ⟨hone, hone'⟩ := notice_eq_one h
  have hres : ∀ i c n, w.results i ≠ .notifying c n := by
    intro i c n hi
    obtain rfl := hone i c n hi
    obtain ⟨t, s, hs, hwakes⟩ := exists_notify ⟨none, none, some 0⟩ (m := w.atResults) hi
    have hstep := (Option.or_eq_none_iff.mp (hquiet (i, .notify t) trivial hwakes)).1
    exact absurd (hs.symm.trans (Option.map_eq_none_iff.mp hstep)) (by simp)
  refine ⟨hres, fun i c n hi => ?_⟩
  obtain rfl := hone' i c n hi
  obtain ⟨t, s, hs, -⟩ := exists_notify ⟨some 0, some 0, some 0⟩ (m := w.atScans) hi
  have hheeded : Heeded w (i, .notify t) := wakesOther_of_ne fun c n => hres i c n
  have hstep := (Option.or_eq_none_iff.mp (hquiet (i, .notify t) trivial hheeded)).2
  exact absurd (hs.symm.trans (Option.map_eq_none_iff.mp hstep)) (by simp)

/-- A thread of the traversal that would not disturb the daemon waits at one of the queues. -/
theorem waits_of_undisturbed (h : (sleepingDaemon cfg tree maxScanId).Reach Heeded w)
    (hquiet : Quiet tree w) (hi : i.Traverses) (hok : Undisturbed w.machine (i, x)) :
    (∃ c, w.results i = .waiting c) ∨ ∃ c, w.scans i = .waiting c := by
  have hund := undisturbed_of_heeded h
  obtain ⟨hres, hscan⟩ := not_notifying_of_quiet h hquiet
  by_contra hno
  push Not at hno
  have hfree : w.isFree i = true := Bool.and_eq_true_iff.mpr
    ⟨Status.isFree_of_ne hno.1 (hres i), Status.isFree_of_ne hno.2 (hscan i)⟩
  obtain ⟨f, rest, hst⟩ := List.exists_cons_of_ne_nil ((busy_of_reach hund).stack_ne_nil hi)
  have htop := Machine.top_of_stack hst
  cases hm : w.machine.step (exec tree) i x with
  | some m =>
    have hrun : w.step tree (i, .run x) = none := hquiet (i, .run x) hi hok
    simp [SleepState.step, hfree, hm] at hrun
  | none =>
    have hsh := (sound_of_reachable hund.reachable).shape i
    rw [hst] at hsh
    have hblocked : w.isBlocked tree i = true := by
      refine Bool.or_eq_true_iff.mpr ?_
      rw [SleepState.resultCall, SleepState.scanCall, htop, Option.bind_some, Option.bind_some]
      refine (blocked_of_exec_eq_none (hsh.of_traverses hi)
        (Machine.exec_of_step_eq_none hm hst)).imp ?_ ?_
      · rintro ⟨c, hc, hn⟩
        simp [hc, SleepState.atResults, hn]
      · rintro ⟨c, hc, hn⟩
        simp [hc, SleepState.atScans, hn]
    have hsleep : w.step tree (i, .sleep) = none := hquiet (i, .sleep) trivial trivial
    simp [SleepState.step, hfree, hblocked] at hsleep

/-- When the traversal has come to rest, the workers and the result thread sleep. -/
theorem waits_of_quiet (h : (sleepingDaemon cfg tree maxScanId).Reach Heeded w)
    (hquiet : Quiet tree w) (hi : i.Traverses) :
    (∃ c, w.results i = .waiting c) ∨ ∃ c, w.scans i = .waiting c := by
  have hund := undisturbed_of_heeded h
  have heng := engaged_of_reachable h
  by_cases hok : Undisturbed w.machine (i, ⟨none, 0, false⟩)
  · exact waits_of_undisturbed h hquiet hi hok
  · -- a worker that is about to store a row does not wait
    obtain ⟨j, id, row, rest, hst⟩ := storing_of_disturbed hund hi hok
    have htop := Machine.top_of_stack hst
    rcases waits_of_undisturbed (i := .worker j) (x := ⟨none, 0, false⟩) h hquiet trivial
      (undisturbed_of_worker hund.reachable rfl) with ⟨c, hc⟩ | ⟨c, hc⟩
    · have hcall := heng.results (.worker j) c (by rw [hc]; rfl)
      simp [SleepState.resultCall, htop, Frame.resultCall] at hcall
    · have hworks := (heng.scans (.worker j) c (by rw [hc]; rfl)).2
      simp [htop] at hworks

/-- Then nobody is awake at a queue: a woken thread belongs to the traversal. -/
theorem asleep_of_quiet (h : (sleepingDaemon cfg tree maxScanId).Reach Heeded w)
    (hquiet : Quiet tree w) : Monitor.Asleep w.atResults ∧ Monitor.Asleep w.atScans := by
  have hund := undisturbed_of_heeded h
  have heng := engaged_of_reachable h
  obtain ⟨hres, hscan⟩ := not_notifying_of_quiet h hquiet
  refine ⟨fun i => ?_, fun i => ?_⟩
  · change w.results i = _ ∨ ∃ c, w.results i = _
    cases hst : w.results i with
    | outside => exact .inl rfl
    | waiting c => exact .inr ⟨c, rfl⟩
    | notifying c n => exact absurd hst (hres i c n)
    | ready c =>
      have hp : (w.results i).pending = some c := by rw [hst]; rfl
      rcases waits_of_quiet h hquiet (traverses_of_resultCall hund (heng.results i c hp)) with
        ⟨d, hd⟩ | ⟨d, hd⟩
      · rw [hst] at hd
        cases hd
      · exact (heng.apart hp (by rw [hd]; rfl)).elim
  · change w.scans i = _ ∨ ∃ c, w.scans i = _
    cases hst : w.scans i with
    | outside => exact .inl rfl
    | waiting c => exact .inr ⟨c, rfl⟩
    | notifying c n => exact absurd hst (hscan i c n)
    | ready c =>
      have hp : (w.scans i).pending = some c := by rw [hst]; rfl
      rcases waits_of_quiet h hquiet
        (traverses_of_workForever hund.reachable (heng.scans i c hp).2) with ⟨d, hd⟩ | ⟨d, hd⟩
      · exact (heng.apart (by rw [hd]; rfl) hp).elim
      · rw [hst] at hd
        cases hd

/-- When the traversal has come to rest, the daemon behind the waits is idle: whoever waits would
have to wait again. -/
theorem idle_of_quiet (h : (sleepingDaemon cfg tree maxScanId).Reach Heeded w)
    (hquiet : Quiet tree w) : Idle (daemon cfg tree maxScanId) w.machine := by
  have hund := undisturbed_of_heeded h
  have hsound := sound_of_reachable hund.reachable
  have hb := busy_of_reach hund
  have heng := engaged_of_reachable h
  obtain ⟨hasleep, hasleep'⟩ := asleep_of_quiet h hquiet
  obtain ⟨hresults, hscans⟩ := reach_monitors h
  intro i x hi
  have hi : i.Traverses := by rcases hi with ⟨j, rfl⟩ | rfl <;> trivial
  by_contra hne
  obtain ⟨m, hm⟩ := Option.ne_none_iff_exists'.mp hne
  obtain ⟨f, fs, hf, he⟩ := SleepState.exists_top hm
  rcases waits_of_quiet h hquiet hi with ⟨c, hc⟩ | ⟨c, hc⟩
  · have hcall := heng.results i c (by rw [hc]; rfl)
    simp only [SleepState.resultCall, hf, Option.bind_some] at hcall
    obtain ⟨rest, hst⟩ := List.head?_eq_some_iff.mp hf
    have hsh := hsound.shape i
    rw [hst] at hsh
    have hnone := (attended_of_reach hresults).body_eq_none hasleep (hb.results_open hsound) hc
      (resultCall_cases (hsh.of_traverses hi) hcall)
    obtain ⟨n, hn⟩ := body_of_resultCall hcall he
    exact absurd (hn.symm.trans hnone) (by simp)
  · obtain ⟨rfl, htop⟩ := heng.scans i c (by rw [hc]; rfl)
    obtain rfl := Option.some.inj (hf.symm.trans htop)
    have hnone := (attended_of_reach hscans).body_eq_none hasleep' (hb.pool_open hsound) hc
      (.inl rfl)
    have hpop : w.machine.shared.manager.scanPool.jobQueue.pop = none :=
      Option.map_eq_none_iff.mp hnone
    have hcall : Frame.workForever.scanCall tree w.machine.shared = some .pop := by
      simp only [Frame.scanCall, hpop]
    obtain ⟨n, hn⟩ := body_of_scanCall hcall he
    exact absurd (hn.symm.trans hnone) (by simp)

/-! ## The traversal -/

/-- The traversal: in the runs that neither stop the pool nor end the result thread, and in which
every notification at the result queue wakes a thread that can go on if such a thread waits, the
workers and the result thread take only so many steps, naps and notifications as the accepted trees
and the wake-ups without a notification allow; every counter is drained once, no node is recorded
twice, and one sentinel follows all events of its scan. When they have come to rest, every accepted
scan is drained and has its sentinel in the queue, and a scan that was not canceled has recorded
every node. -/
theorem traversal {as : List (Thread cfg × SleepAct cfg)} (hn : 0 < cfg.scanPoolNumThreads)
    (hq : 0 < cfg.queSize)
    (ho : (sleepingDaemon cfg tree maxScanId).Obeys Heeded as
      (sleepingDaemon cfg tree maxScanId).init)
    (he : (sleepingDaemon cfg tree maxScanId).exec as
      (sleepingDaemon cfg tree maxScanId).init = some w) :
    let σ := w.machine.shared
    as.countP (fun a => a.2.Works a.1) ≤
        (σ.history.accepted.map fun s => 90 * (tree s).size + 2).sum +
          2 * Fintype.card (Thread cfg) + as.countP (fun a => a.2.IsWake) ∧
    (∀ s, σ.history.drained.count s ≤ 1 ∧
      (∀ root, (s, root) ∈ σ.history.submitted →
        σ.exportManager.recorded s ≤ (rootJob tree ⟨s, root⟩).events) ∧
      σ.exportManager.announcedEnds s ≤ 1) ∧
    (∀ pre ev post, σ.exportManager.pushed = pre ++ ev :: post →
      ev.endSignal.isSentinel = true → ∀ e ∈ post, e.scanId ≠ ev.scanId) ∧
    (Quiet tree w → ∀ s ∈ σ.history.accepted,
      σ.history.drained.count s = 1 ∧ (σ.manager.context s).unfinishedJobs = 0 ∧
      σ.exportManager.announcedEnds s = 1 ∧
      ((σ.manager.context s).canceled = false → ∀ root, (s, root) ∈ σ.history.submitted →
        σ.exportManager.recorded s = (rootJob tree ⟨s, root⟩).events)) := by
  have h : (sleepingDaemon cfg tree maxScanId).Reach Heeded w :=
    System.Reach.exec_of_obeys .init ho he
  have hund := undisturbed_of_heeded h
  refine ⟨?_, recorded_once hund, (ordered_of_reach hund).last, fun hquiet s ha =>
    recorded_of_idle hund hn hq (idle_of_quiet h hquiet) ha⟩
  have hspent : as.countP (fun a => a.2.Works a.1) + w.effort + _ ≤
      _ + w.credit tree + as.countP (fun a => a.2.IsWake) :=
    System.spent_le (fun _ _ _ hn hok hs => SleepState.effort_step hn hok hs) .init ho he
  have hcredit : w.credit tree =
    (w.machine.shared.history.accepted.map fun s => 90 * (tree s).size + 2).sum := rfl
  rw [SleepState.effort_initial] at hspent
  omega

/-! ## A result queue of one place -/

/-- A daemon with two workers whose result queue has one place. -/
abbrev tightConfig : Config := { smallConfig 2 2 2 with queSize := 1 }

abbrev tight : System (SleepState tightConfig) (Thread tightConfig × SleepAct tightConfig) :=
  sleepingDaemon tightConfig (fun _ => smallTree) 0

/-- A number of steps of one thread. -/
def goes (count : ℕ) (t : Thread tightConfig) :
    List (Thread tightConfig × SleepAct tightConfig) :=
  List.replicate count (t, .run ⟨none, 0, false⟩)

/-- The thread notifies after its steps. -/
def does (count : ℕ) (t : Thread tightConfig) (target : Option (Thread tightConfig)) :
    List (Thread tightConfig × SleepAct tightConfig) := goes count t ++ [(t, .notify target)]

def asks (rootPath : Path) : List (Thread tightConfig × SleepAct tightConfig) :=
  (.http ⟨0, Nat.one_pos⟩, .run ⟨some (.submit rootPath), 0, false⟩) ::
    goes 2 (.http ⟨0, Nat.one_pos⟩)

abbrev firstWorker : Thread tightConfig := .worker ⟨0, Nat.two_pos⟩

abbrev secondWorker : Thread tightConfig := .worker ⟨1, Nat.one_lt_two⟩

/-- The result thread waits. Two scans are accepted; the first worker has pushed the root of one of
them, and the second worker waits for room. -/
def crowdedScans : List (Thread tightConfig × SleepAct tightConfig) :=
  (.result, .sleep) :: asks ['/', 'a'] ++ asks ['/', 'b'] ++ does 4 .run none ++
    does 5 .run none ++ goes 1 .run ++ does 1 firstWorker none ++ goes 2 firstWorker ++
    does 1 secondWorker none ++ goes 1 secondWorker ++ [(secondWorker, .sleep)]

/-- A worker submits the file below its directory, takes it and finishes its scan. -/
def finishes (t : Thread tightConfig) : List (Thread tightConfig × SleepAct tightConfig) :=
  does 4 t none ++ does 5 t none ++ does 2 t none ++ does 1 .result none ++ does 6 t none ++
    goes 3 t ++ does 1 .result none ++ goes 3 .result

/-- The first worker wakes the result thread. -/
def heededRun : List (Thread tightConfig × SleepAct tightConfig) :=
  crowdedScans ++ (firstWorker, .notify (some .result)) :: does 1 .result (some secondWorker) ++
    does 1 secondWorker none ++ does 1 .result none ++ finishes firstWorker ++
    finishes secondWorker ++ [(firstWorker, .sleep), (secondWorker, .sleep), (.result, .sleep)]

theorem traversal_tight :
    Quiet (fun _ => smallTree) (tight.run heededRun) ∧
      let σ := (tight.run heededRun).machine.shared
      σ.history.drained.count 1 = 1 ∧ σ.exportManager.announcedEnds 1 = 1 ∧
        σ.exportManager.recorded 1 = (rootJob (fun _ => smallTree) ⟨1, ['/', 'a']⟩).events := by
  have hquiet : Quiet (fun _ => smallTree) (tight.run heededRun) := fun a h _ =>
    SleepState.step_eq_none (by decide +kernel) (by decide +kernel) (by decide +kernel)
      (by decide +kernel) h
  have he : tight.exec heededRun tight.init = some (tight.run heededRun) :=
    System.exec_eq_run (by decide +kernel)
  obtain ⟨-, -, -, hall⟩ := traversal (by decide) (by decide) (by decide +kernel) he
  obtain ⟨hd, -, hends, hrec⟩ := hall hquiet 1 (by decide +kernel)
  exact ⟨hquiet, hd, hends, hrec (by decide +kernel) ['/', 'a'] (by decide +kernel)⟩

/-- The first worker wakes the second one instead, and finds the queue full with its next event. -/
def lostRun : List (Thread tightConfig × SleepAct tightConfig) :=
  crowdedScans ++ (firstWorker, .notify (some secondWorker)) :: (secondWorker, .sleep) ::
    does 4 firstWorker none ++ does 5 firstWorker none ++ goes 1 firstWorker ++
    [(firstWorker, .sleep)]

/-- After the wrong thread has been woken, all threads of the traversal sleep beside an event in the
result queue, and neither scan is drained. -/
theorem traversal_stuck :
    ∃ w, tight.Reach Peaceful w ∧ (∀ a, a.2.Works a.1 → tight.step w a = none) ∧
      w.results .result = .waiting .pop ∧
      w.machine.shared.exportManager.resultQueue.container ≠ [] ∧
      ∀ s ∈ [1, 2], s ∈ w.machine.shared.history.accepted ∧
        w.machine.shared.history.drained.count s = 0 ∧
        (w.machine.shared.manager.context s).unfinishedJobs ≠ 0 ∧
        w.machine.shared.exportManager.announcedEnds s = 0 := by
  refine ⟨tight.run lostRun, System.reach_run (by decide +kernel), fun a h => ?_,
    by decide +kernel, by decide +kernel, by decide +kernel⟩
  exact SleepState.step_eq_none (by decide +kernel) (by decide +kernel) (by decide +kernel)
    (by decide +kernel) h

/-! ## Every accepted scan can be exported -/

/-- Unless it has been disturbed or a notification has gone to the wrong thread, the daemon is never
stuck on an accepted scan: the workers and the result thread alone have a run, of no more steps than
the accepted trees and the number of threads allow, after which every scan accepted so far is over,
exported, and has its root released. -/
theorem accepted_scans_exportable (h : (sleepingDaemon cfg tree maxScanId).Reach Heeded w)
    (hn : 0 < cfg.scanPoolNumThreads) (hq : 0 < cfg.queSize) :
    ∃ as w', (∀ a ∈ as, a.2.Works a.1) ∧
      as.length ≤ (w.machine.shared.history.accepted.map fun s => 90 * (tree s).size).sum +
        6 * Fintype.card (Thread cfg) ∧
      (sleepingDaemon cfg tree maxScanId).Obeys Heeded as w ∧
      (sleepingDaemon cfg tree maxScanId).exec as w = some w' ∧
      ∀ s ∈ w.machine.shared.history.accepted,
        s ∈ w'.machine.shared.exportManager.exportedMap ∧
        s ∈ w'.machine.shared.history.released ∧
        (w'.machine.shared.scheduler.state s = some .done ∨
          w'.machine.shared.scheduler.state s = some .canceled) := by
  have hprogress : ∀ w, (sleepingDaemon cfg tree maxScanId).Reach Heeded w → ¬Quiet tree w →
      ∃ a w', a.2.Works a.1 ∧ Heeded w a ∧
        (sleepingDaemon cfg tree maxScanId).step w a = some w' ∧ w'.effort < w.effort := by
    intro w hr hnot
    unfold Quiet at hnot
    push Not at hnot
    obtain ⟨a, hworks, hok, hstep⟩ := hnot
    obtain ⟨w', hs⟩ := Option.ne_none_iff_exists'.mp hstep
    refine ⟨a, w', hworks, hok, hs, ?_⟩
    have hlow := SleepState.effort_step hr hok hs
    rw [if_pos hworks, if_neg (hworks.not_isWake), SleepState.credit, SleepState.credit,
      accepted_of_works hr hworks hs] at hlow
    omega
  obtain ⟨as, w', hall, hlen, ho, he, hquiet⟩ := System.exists_exec (Quiet tree)
    (fun a => a.2.Works a.1) SleepState.effort hprogress h
  have hr := h.exec_of_obeys ho he
  have hund := undisturbed_of_heeded hr
  refine ⟨as, w', hall, hlen.trans ?_, ho, he, fun s hs => ?_⟩
  · have hwork := work_le_brought (undisturbed_of_heeded h)
    have hres := Monitor.effort_le_card (m := w.atResults)
    have hscan := Monitor.effort_le_card (m := w.atScans)
    have hthree : ∀ l : List ScanId, (l.map fun s => 90 * (tree s).size).sum =
        3 * (l.map fun s => 30 * (tree s).size).sum := fun l => by
      rw [← List.sum_map_mul_left]
      exact congrArg List.sum (List.map_congr_left fun s _ => by omega)
    rw [hthree]
    unfold SleepState.effort
    unfold brought at hwork
    omega
  · exact exported_of_idle hund hn hq (idle_of_quiet hr hquiet)
      (accepted_of_exec h.reachable he hs)

/-- The first worker is about to notify, with the other threads asleep. -/
theorem accepted_scans_exportable_two :
    ∃ as w', tight.exec as (tight.run crowdedScans) = some w' ∧
      1 ∈ w'.machine.shared.exportManager.exportedMap ∧
      2 ∈ w'.machine.shared.exportManager.exportedMap := by
  have h : tight.Reach Heeded (tight.run crowdedScans) := System.reach_run (by decide +kernel)
  obtain ⟨as, w', -, -, -, he, hall⟩ := accepted_scans_exportable h (by decide) Nat.one_pos
  exact ⟨as, w', he, (hall 1 (by decide +kernel)).1, (hall 2 (by decide +kernel)).1⟩

end ScanDaemon
