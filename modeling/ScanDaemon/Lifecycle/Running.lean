import ScanDaemon.Lifecycle.Owned
import ScanDaemon.Lifecycle.States

/-! # The number of running scans

`running_scans` is raised by `run` and lowered by `notify_scan_finished`, which
may come first. The difference between the scans accepted and the scans
finished is `running_scans`, and one more while `run` still has to commit an
acceptance for a scan that is not done.
-/

namespace ScanDaemon

open Interleave

variable {cfg : Config} {tree : ScanId → FsNode} {σ σ' : Shared cfg} {x : Input} {f : Frame}
  {fs rest : List Frame} {s : ScanId} {k : ℤ} {o : Option ScanId} {sc sc' : Scheduler}

/-- The accepted scan that `run` is about to commit. -/
@[simp] def RunPc.committing : RunPc → Option ScanId
  | .commit data true _ => some data.scanId
  | _ => none

/-- The accepted scan that `run` is about to commit, read from the stack of its thread. -/
def committing (l : List Frame) : Option ScanId := (runPc l).bind RunPc.committing

@[simp] theorem committing_nil : committing [] = none := rfl
@[simp] theorem committing_run {pc : RunPc} : committing (.run pc :: rest) = pc.committing := rfl
@[simp] theorem committing_cancelScan : committing (.cancelScan s :: rest) = committing rest := rfl
@[simp] theorem committing_finish {pc : FinishPc} :
    committing (.finish s pc :: rest) = committing rest := rfl

/-- The slot that `run` keeps free for the scan it is about to submit. -/
@[simp] def RunPc.slots : RunPc → ℤ
  | .start _ | .submit _ | .push _ => 1
  | _ => 0

/-- The slot in hand, read from the stack of the thread of `run`. -/
def slots (l : List Frame) : ℤ := (runPc l).elim 0 RunPc.slots

@[simp] theorem slots_run {pc : RunPc} : slots (.run pc :: rest) = pc.slots := rfl
@[simp] theorem slots_cancelScan : slots (.cancelScan s :: rest) = slots rest := rfl
@[simp] theorem slots_finish {pc : FinishPc} : slots (.finish s pc :: rest) = slots rest := rfl

/-- What `running_scans` lacks while an acceptance is not committed. -/
def Scheduler.uncounted (sc : Scheduler) : Option ScanId → ℤ
  | none => 0
  | some s => if sc.state s = some .done then 0 else 1

@[simp] theorem Scheduler.uncounted_none : sc.uncounted none = 0 := rfl

theorem committing_eq_some (l : List Frame) :
    committing l = some s ↔ ∃ q, runPhase s l = .commit true q := by
  unfold committing runPhase
  cases runPc l with
  | none => simp
  | some pc =>
    cases pc with
    | commit data managerAccept queueFull =>
      cases managerAccept <;> by_cases hid : data.scanId = s <;> simp [hid]
    | head => simp
    | _ => simp; split <;> simp

/-- The books of `running_scans` while `run` is committing `o` and has `k` slots in hand. -/
structure Counted (cfg : Config) (sc : Scheduler) (h : History) (o : Option ScanId) (k : ℤ) :
    Prop where
  gauge : sc.scanRunning = sc.runningScans
  count : sc.runningScans + sc.uncounted o = (h.accepted.length : ℤ) - h.finished.length
  bound : sc.runningScans + sc.uncounted o + k ≤ Scheduler.maxConcurrentScan cfg

/-- Nothing is to be counted anew where the counters stay and no scan becomes done. -/
theorem Scheduler.uncounted_congr
    (h : ∀ s, sc'.state s = some .done ↔ sc.state s = some .done) :
    sc'.uncounted o = sc.uncounted o := by
  cases o with
  | none => rfl
  | some s => simp [Scheduler.uncounted, h s]

namespace Counted

variable {h h' : History}

theorem congr (hc : Counted cfg sc h o k) (hr : sc'.runningScans = sc.runningScans)
    (hg : sc'.scanRunning = sc.scanRunning)
    (hd : ∀ s, sc'.state s = some .done ↔ sc.state s = some .done)
    (ha : h'.accepted = h.accepted) (hf : h'.finished = h.finished) :
    Counted cfg sc' h' o k := by
  obtain ⟨h₁, h₂, h₃⟩ := hc
  refine ⟨?_, ?_, ?_⟩
  · rw [hg, hr, h₁]
  · rw [hr, Scheduler.uncounted_congr hd, ha, hf, h₂]
  · rwa [hr, Scheduler.uncounted_congr hd]

/-- A scan is notified that is running, canceled, or accepted and about to be committed. -/
theorem notify (hc : Counted cfg sc h o k)
    (hn : sc.state s = some .running ∧ o ≠ some s ∨ sc.state s = some .canceled ∨
      sc.state s = some .dispatching ∧ o = some s) :
    Counted cfg (sc.notifyScanFinished s) { h with finished := s :: h.finished } o k := by
  obtain ⟨h₁, h₂, h₃⟩ := hc
  rcases hn with ⟨hst, ho⟩ | hst | ⟨hst, rfl⟩
  · have hu : (sc.subRunning.setState s .done).uncounted o = sc.uncounted o := by
      cases o with
      | none => rfl
      | some s' =>
        have hne : s' ≠ s := fun he => ho (congrArg some he)
        simp [Scheduler.uncounted, hne]
    simp only [Scheduler.notifyScanFinished, hst]
    refine ⟨by simp [h₁], ?_, ?_⟩ <;> rw [hu]
    · simp only [Scheduler.setState_runningScans, Scheduler.subRunning_runningScans,
        List.length_cons]
      omega
    · simp only [Scheduler.setState_runningScans, Scheduler.subRunning_runningScans]
      omega
  · have hu : sc.subRunning.uncounted o = sc.uncounted o :=
      Scheduler.uncounted_congr fun _ => Iff.rfl
    simp only [Scheduler.notifyScanFinished, hst]
    refine ⟨by simp [h₁], ?_, ?_⟩ <;> rw [hu]
    · simp only [Scheduler.subRunning_runningScans, List.length_cons]
      omega
    · simp only [Scheduler.subRunning_runningScans]
      omega
  · simp only [Scheduler.notifyScanFinished, hst]
    simp only [Scheduler.uncounted, hst] at h₂ h₃
    refine ⟨h₁, ?_, ?_⟩
    · simp [Scheduler.uncounted] at h₂ ⊢
      omega
    · simp [Scheduler.uncounted] at h₃ ⊢
      omega

/-- The threads other than `run` keep the books. -/
theorem step (hc : Counted cfg σ.scheduler σ.history o k) (hs : Step tree σ x f σ' fs)
    (hf : ∀ pc, f ≠ .run pc)
    (hn : ∀ s t, f = .finish s (.notifyFinished t) →
      σ.scheduler.state s = some .running ∧ o ≠ some s ∨ σ.scheduler.state s = some .canceled ∨
        σ.scheduler.state s = some .dispatching ∧ o = some s) :
    Counted cfg σ'.scheduler σ'.history o k := by
  cases hs with
  | run => exact absurd rfl (hf _)
  | http hs =>
    cases hs with
    | draw => exact hc.congr rfl rfl (fun _ => Iff.rfl) rfl rfl
    | @accept id _ _ _ hst =>
      refine hc.congr rfl rfl (fun s => ?_) rfl rfl
      by_cases hid : s = id <;> simp [hid, hst]
    | @cancel_running id hst =>
      refine hc.congr rfl rfl (fun s => ?_) rfl rfl
      by_cases hid : s = id
      · rcases hst with hst | hst <;> simp [hid, hst]
      · simp [hid]
    | @cancel_pending id hst =>
      refine hc.congr rfl rfl (fun s => ?_) rfl rfl
      by_cases hid : s = id <;> simp [hid, hst]
    | _ => exact hc
  | finish hs =>
    cases hs with
    | notify_finished => exact hc.notify (hn _ _ rfl)
    | notify_dispatch => exact hc.congr rfl rfl (fun _ => Iff.rfl) rfl rfl
    | drain | insert_row => exact hc.congr rfl rfl (fun _ => Iff.rfl) rfl rfl
    | _ => exact hc
  | result hs =>
    cases hs with
    | notify_export => exact hc.congr rfl rfl (fun _ => Iff.rfl) rfl rfl
    | row_missing => exact hc.congr rfl rfl (fun _ => Iff.rfl) rfl rfl
    | _ => exact hc
  | main hs =>
    cases hs with
    | shutdown =>
      refine hc.congr rfl rfl (fun s => ?_) rfl rfl
      rw [Shared.withScheduler_scheduler, Scheduler.state_shutdown]
      cases hst : σ.scheduler.state s with
      | none => by_cases hq : s ∈ σ.scheduler.pendingQueue.map PendingRoot.scanId <;>
          simp [Scheduler.MaybeRunning, hq]
      | some st => cases st <;> simp [Scheduler.MaybeRunning, ite_eq_iff]
    | _ => exact hc
  | workForever hs => cases hs <;> exact hc
  | workerJob hs => cases hs <;> exact hc
  | cancelScan => exact hc

/-- The dispatch of a scan keeps the books. -/
theorem step_run {pc : RunPc} (hc : Counted cfg σ.scheduler σ.history pc.committing pc.slots)
    (hs : RunStep tree σ x pc σ' fs)
    (hpush : ∀ data, pc = .push data → σ.scheduler.state data.scanId ≠ some .done)
    (hcommit : ∀ data a q, pc = .commit data a q →
      σ.scheduler.state data.scanId = some .dispatching ∨
      σ.scheduler.state data.scanId = some .canceled ∨
      σ.scheduler.state data.scanId = some .done) :
    Counted cfg σ'.scheduler σ'.history (committing fs) (slots fs) := by
  obtain ⟨h₁, h₂, h₃⟩ := hc
  cases hs with
  | stop => exact ⟨h₁, h₂, h₃⟩
  | dispatch _ _ hr => exact ⟨h₁, h₂, by simp; omega⟩
  | @accept data =>
    have hu : σ.scheduler.uncounted (some data.scanId) = 1 := by
      simp [Scheduler.uncounted, hpush data rfl]
    refine ⟨h₁, ?_, ?_⟩
    · simp at h₂ ⊢; omega
    · simp at h₃ ⊢; omega
  | @commit_canceled data q hst =>
    have hu : σ.scheduler.uncounted (some data.scanId) = 1 := by simp [Scheduler.uncounted, hst]
    refine ⟨by simp [h₁], ?_, ?_⟩
    · simp at h₂ ⊢; omega
    · simp at h₃ ⊢; omega
  | @commit_running data q hst =>
    have hu : σ.scheduler.uncounted (some data.scanId) = 1 := by simp [Scheduler.uncounted, hst]
    refine ⟨by simp [h₁], ?_, ?_⟩
    · simp at h₂ ⊢; omega
    · simp at h₃ ⊢; omega
  | @commit_other data managerAccept q hne₁ hne₂ =>
    have hst := (hcommit data _ _ rfl).resolve_left hne₂ |>.resolve_left hne₁
    have hu : σ.scheduler.uncounted (some data.scanId) = 0 := by simp [Scheduler.uncounted, hst]
    cases managerAccept with
    | false => exact ⟨h₁, h₂, h₃⟩
    | true =>
      refine ⟨h₁, ?_, ?_⟩
      · simp at h₂ ⊢; omega
      · simp at h₃ ⊢; omega
  | register | submit => exact ⟨h₁, h₂, h₃⟩
  | skip_dropped | skip | throw | registered | refuse_full | refuse_shutdown | full | store_failed
  | erase | commit_canceled_refused | commit_pending | commit_failed =>
    exact ⟨by simpa using h₁, by simpa using h₂, by simp at h₃ ⊢; omega⟩

end Counted

section Runs

variable {maxScanId : ScanId} {m m' : DaemonState cfg} {a : Thread cfg × Input} {R : Multiset Frame}

/-- The scan that is about to be notified, by its recorded state. -/
theorem Sound.state_of_notifying (h : Sound m) (hn : 0 < (life s m).notifying) :
    m.shared.scheduler.state s = some .running ∧ committing (m.stack .run) ≠ some s ∨
      m.shared.scheduler.state s = some .canceled ∨
      m.shared.scheduler.state s = some .dispatching ∧ committing (m.stack .run) = some s := by
  have hv := h.valid s
  obtain ⟨h₁, h₂⟩ := hv.of_notifying hn
  have hp : (life s m).phase = runPhase s (m.stack .run) := rfl
  cases hst : m.shared.scheduler.state s with
  | none => have h₃ := (hv.before (.inl hst)).2; omega
  | some st =>
    cases st with
    | pending | dropped | failed =>
      have h₃ := (hv.before (by simp [life, lifeOf, hst])).2
      omega
    | running =>
      refine .inl ⟨rfl, fun hc => ?_⟩
      obtain ⟨q, hq⟩ := (committing_eq_some _).mp hc
      have h₃ := (hv.running hst).1
      simp [hp, hq] at h₃
    | canceled => exact .inr (.inl rfl)
    | done => have h₃ := hv.done hst; omega
    | dispatching =>
      obtain ⟨h₃, h₄, -⟩ := hv.dispatching hst
      refine .inr (.inr ⟨rfl, (committing_eq_some _).mpr ?_⟩)
      exact (hv.accepted (by omega)).resolve_left h₃

theorem counted_of_reachable (h : (daemon cfg tree maxScanId).Reachable m) :
    Counted cfg m.shared.scheduler m.shared.history (committing (m.stack .run))
      (slots (m.stack .run)) := by
  refine h.invariant (P := fun m => Counted cfg m.shared.scheduler m.shared.history
    (committing (m.stack .run)) (slots (m.stack .run))) ?_ fun n a n' hn _ hs hc => ?_
  · refine ⟨rfl, rfl, ?_⟩
    simp [daemon, Shared.new, Scheduler.new, initialStack]
  have hsound := sound_of_reachable hn
  rcases hsound.step_cases hs with ⟨pc, fs, R, hr, hst, hr', -⟩ |
    ⟨f, rest, fs, R, hf, hsh, hst, hne, hpc, hF, -⟩
  · rw [hr] at hc
    rw [hr']
    have hv : ∀ data : PendingRoot, (life data.scanId n).phase = pc.phase data.scanId := by
      intro data
      simp [life, lifeOf, hr]
    refine hc.step_run hst (fun data hp hd => ?_) fun data a q hp => ?_
    · have h₁ := (hsound.valid data.scanId).done hd
      have h₂ := (hsound.valid data.scanId).of_early (by rw [hv]; subst hp; simp [Phase.early])
      omega
    · have h₁ := (hsound.valid data.scanId).state_of_phase (by rw [hv]; subst hp; simp)
      exact h₁
  · rw [committing, slots, hpc]
    refine hc.step hst hne fun s t he => hsound.state_of_notifying ?_
    subst he
    simp [life, lifeOf, hF]

/-- Before shutdown every notified scan has been accepted. -/
theorem Sound.count_finished_le (h : Sound m) (hr : m.shared.history.rejected.count s = 0) :
    m.shared.history.finished.count s ≤ m.shared.history.accepted.count s := by
  have h₁ := (h.valid s).notified
  have h₂ := (h.valid s).drain
  simp only [life, lifeOf] at h₁ h₂
  split_ifs at h₂ <;> omega

/-- The scans accepted by `start_new_scan` for which `notify_scan_finished` has not run. -/
def History.unfinished (h : History) : Finset ScanId := h.accepted.toFinset \ h.finished.toFinset

theorem History.card_unfinished {h : History} (ha : ∀ s, h.accepted.count s ≤ 1)
    (hf : ∀ s, h.finished.count s ≤ h.accepted.count s) :
    (h.unfinished.card : ℤ) = (h.accepted.length : ℤ) - h.finished.length := by
  have hna : h.accepted.Nodup := List.nodup_iff_count_le_one.mpr ha
  have hnf : h.finished.Nodup := List.nodup_iff_count_le_one.mpr fun s => (hf s).trans (ha s)
  have hsub : h.finished.toFinset ⊆ h.accepted.toFinset := by
    intro s hs
    rw [List.mem_toFinset, ← List.count_pos_iff] at hs ⊢
    exact hs.trans_le (hf s)
  rw [History.unfinished, Finset.card_sdiff_of_subset hsub,
    Nat.cast_sub (Finset.card_le_card hsub), List.toFinset_card_of_nodup hna,
    List.toFinset_card_of_nodup hnf]

/-- No root job is refused with `Shutdown` before shutdown. -/
theorem Sound.count_rejected (h : Sound m) (hstop : m.shared.scheduler.stopFlag = false)
    (s : ScanId) :
    m.shared.history.rejected.count s = 0 := by
  by_contra hr
  have h₁ := ((h.valid s).rejected (Nat.pos_of_ne_zero hr)).2
  simp [life, lifeOf, hstop] at h₁

/-- Before shutdown, at the head of the loop of `run`, `running_scans` is the number of
accepted scans that are not finished, and there are never more than `MAX_CONCURRENT_SCAN`. -/
theorem running_scans_eq (h : (daemon cfg tree maxScanId).Reachable m)
    (hstop : m.shared.scheduler.stopFlag = false) :
    (m.stack .run = [.run .head] →
      m.shared.scheduler.runningScans = m.shared.history.unfinished.card) ∧
    m.shared.history.unfinished.card ≤ Scheduler.maxConcurrentScan cfg := by
  have hsound := sound_of_reachable h
  have hc := counted_of_reachable h
  have hcard := History.card_unfinished (accepted_once h)
    fun s => hsound.count_finished_le (hsound.count_rejected hstop s)
  refine ⟨fun hr => ?_, ?_⟩
  · have h₁ := hc.count
    simp only [hr, committing_run, RunPc.committing, Scheduler.uncounted_none] at h₁
    omega
  · have h₁ := hc.count
    have h₂ := hc.bound
    have hk : 0 ≤ slots (m.stack .run) := by
      unfold slots
      cases runPc (m.stack .run) with
      | none => simp
      | some pc => cases pc <;> simp
    omega

/-- A scan that was done before `run` committed its acceptance is not counted. -/
theorem running_scans_eq_done :
    let m := (daemon (smallConfig 1 1 1) (fun _ => .file 0 0) 0).run
      (serve (.submit ['/', 'a']) 2 ++ steps 4 .run ++
        steps 7 (.worker ⟨0, Nat.one_pos⟩) ++ steps 1 .run)
    m.shared.history.accepted = [1] ∧ m.shared.scheduler.state 1 = some .done ∧
      m.shared.scheduler.runningScans = m.shared.history.unfinished.card :=
  ⟨by decide, by decide, (running_scans_eq (System.reachable_run _ _) (by decide)).1 (by rfl)⟩

end Runs

end ScanDaemon
