import ScanDaemon.Lifecycle.Submitted
import ScanDaemon.Lifecycle.States
import ScanDaemon.Runtime.History

/-! # The roots that are taken

A submitted root stays in `root_map` until its scan is exported. A scan that
ends without an export would keep its root, so the runs considered here end no
scan before the manager has accepted it.
-/

namespace ScanDaemon

open Interleave

variable {cfg : Config} {tree : ScanId → FsNode} {σ σ' : Shared cfg} {x : Input} {f : Frame}
  {fs : List Frame} {maxScanId : ScanId} {m m' : DaemonState cfg} {a : Thread cfg × Input}
  {s : ScanId} {root : Path} {st : RequestState}

/-- The scan can no longer produce an export. -/
def Dead (m : DaemonState cfg) (s : ScanId) : Prop :=
  m.shared.scheduler.state s = some .dropped ∨ m.shared.scheduler.state s = some .failed ∨
    (m.shared.scheduler.state s = some .canceled ∧ s ∉ m.shared.history.accepted ∧
      ∀ data ∈ runData (m.stack .run), data.scanId ≠ s) ∨
    s ∈ m.shared.history.released

instance (m : DaemonState cfg) (s : ScanId) : Decidable (Dead m s) :=
  inferInstanceAs (Decidable (_ ∨ _ ∨ (_ ∧ _ ∧ _) ∨ _))

/-- The frame ends a scan that the manager has not accepted. -/
def Frame.Abandons (sc : Scheduler) : Frame → Prop
  | .http (.cancel id) => sc.state id = some .pending
  | .run (.commit data false queueFull) => sc.state data.scanId = some .canceled ∨
      sc.state data.scanId = some .dispatching ∧ queueFull = false
  | _ => False

instance (sc : Scheduler) : (f : Frame) → Decidable (f.Abandons sc)
  | .http (.cancel id) => inferInstanceAs (Decidable (sc.state id = _))
  | .run (.commit _ false _) => inferInstanceAs (Decidable (_ ∨ _ ∧ _))
  | .http .worker | .http (.submit _) | .http (.locked _ _) | .run .head | .run (.start _)
  | .run (.submit _) | .run (.push _) | .run (.full _) | .run (.storeFailed _)
  | .run (.erase _) | .run (.commit _ true _) | .cancelScan _ | .workForever | .workerJob _ _
  | .finish _ _ | .result _ | .main _ => .isFalse id

/-- The step does not end a scan that the manager has not accepted. -/
def EndsAccepted (m : DaemonState cfg) (a : Thread cfg × Input) : Prop :=
  ∀ f ∈ m.top a.1, ¬f.Abandons m.shared.scheduler

instance (m : DaemonState cfg) (a : Thread cfg × Input) : Decidable (EndsAccepted m a) :=
  inferInstanceAs (Decidable (∀ f ∈ m.top a.1, _))

/-- What a step before shutdown does to the state of a scan, as far as its end is concerned. -/
theorem Step.state_cases (hs : Step tree σ x f σ' fs) (hstop : σ'.scheduler.stopFlag = false) :
    σ'.scheduler.state s = σ.scheduler.state s ∨
      (∃ q, σ'.scheduler.state s = some q ∧ q ≠ .dropped ∧ q ≠ .failed ∧ q ≠ .canceled) ∨
      (∃ q, σ'.scheduler.state s = some q ∧ q ≠ .canceled ∧ f.Abandons σ.scheduler) ∨
      σ'.scheduler.state s = some .canceled ∧ (σ.scheduler.state s = some .running ∨
        σ.scheduler.state s = some .dispatching ∧ ∀ pc, f ≠ .run pc) := by
  have hset {sc : Scheduler} {id : ScanId} {q : RequestState} {P : Prop}
      (h : (sc.setState id q).state s = some q → P) :
      (sc.setState id q).state s = sc.state s ∨ P := by
    by_cases hid : s = id
    · exact .inr (h (by simp [hid]))
    · exact .inl (by simp [hid])
  cases hs with
  | http hs =>
    cases hs with
    | accept => exact hset fun h => .inl ⟨_, h, by simp, by simp, by simp⟩
    | @cancel_running id hr =>
      by_cases hid : s = id
      · subst hid
        exact .inr (.inr (.inr ⟨by simp, hr.imp_right fun hd => ⟨hd, by simp⟩⟩))
      · exact .inl (by simp [hid])
    | cancel_pending hp => exact hset fun h => .inr (.inl ⟨_, h, by simp, hp⟩)
    | _ => exact .inl rfl
  | run hs =>
    cases hs with
    | dispatch | commit_running | commit_pending =>
      exact hset fun h => .inl ⟨_, h, by simp, by simp, by simp⟩
    | commit_failed hd => exact hset fun h => .inr (.inl ⟨_, h, by simp, .inr ⟨hd, rfl⟩⟩)
    | _ => exact .inl rfl
  | finish hs =>
    cases hs with
    | @notify_finished id =>
      simp only [Shared.withHistory_scheduler, Shared.withScheduler_scheduler,
        state_notifyScanFinished]
      split_ifs with hid
      · rcases Life.finishedState_cases (σ.scheduler.state s) with ⟨he, -⟩ | ⟨he, -⟩
        · exact .inr (.inl ⟨_, hid ▸ he, by simp, by simp, by simp⟩)
        · exact .inl (hid ▸ he)
      · exact .inl rfl
    | _ => exact .inl rfl
  | main hs =>
    cases hs with
    | shutdown => simp [Scheduler.shutdown] at hstop
    | _ => exact .inl rfl
  | workForever hs | workerJob hs | result hs => cases hs <;> exact .inl rfl
  | cancelScan => exact .inl rfl

/-- Before shutdown a scan is dropped or failed only by a step that abandons it. -/
theorem Step.state_eq (hs : Step tree σ x f σ' fs) (hf : ¬f.Abandons σ.scheduler)
    (hstop : σ'.scheduler.stopFlag = false) (hst : σ'.scheduler.state s = some st)
    (ht : st = .dropped ∨ st = .failed) : σ.scheduler.state s = some st := by
  obtain he | ⟨q, hq, hd, hfail, -⟩ | ⟨-, -, -, ha⟩ | ⟨hc, -⟩ := hs.state_cases hstop (s := s)
  · exact he ▸ hst
  · obtain rfl := Option.some.inj (hq.symm.trans hst)
    exact absurd ht (not_or.mpr ⟨hd, hfail⟩)
  · exact absurd ha hf
  · obtain rfl := Option.some.inj (hc.symm.trans hst)
    exact absurd ht (by simp)

/-- Before shutdown a scan is canceled only by a request for a scan that is under way. -/
theorem Step.state_of_canceled (hs : Step tree σ x f σ' fs)
    (hstop : σ'.scheduler.stopFlag = false) (hst : σ'.scheduler.state s = some .canceled) :
    σ.scheduler.state s = some .canceled ∨ σ.scheduler.state s = some .running ∨
      σ.scheduler.state s = some .dispatching ∧ ∀ pc, f ≠ .run pc := by
  obtain he | ⟨q, hq, -, -, hne⟩ | ⟨q, hq, hne, -⟩ | ⟨-, hc⟩ := hs.state_cases hstop (s := s)
  · exact .inl (he ▸ hst)
  · exact absurd (Option.some.inj (hq.symm.trans hst)) hne
  · exact absurd (Option.some.inj (hq.symm.trans hst)) hne
  · exact .inr hc

/-- What a step does to the roots: it takes one that overlaps no other, gives one back, or
leaves them alone. -/
theorem Step.roots (hs : Step tree σ x f σ' fs) :
    (∃ id root, (∀ row : ScanTaskRow, f ≠ .result (.notifyExport row)) ∧
      σ.scheduler.checkNonOverlapPath root = true ∧ σ.scheduler.state id = none ∧
      σ'.scheduler.state id = some .pending ∧
      σ'.scheduler.rootMap = insert root σ.scheduler.rootMap ∧
      σ'.history.submitted = (id, root) :: σ.history.submitted ∧
      σ'.history.released = σ.history.released) ∨
    (∃ row : ScanTaskRow, f = .result (.notifyExport row) ∧
      σ'.scheduler.rootMap = σ.scheduler.rootMap.erase row.submitRoot ∧
      σ'.history.submitted = σ.history.submitted ∧
      σ'.history.released = row.scanId :: σ.history.released) ∨
    (∀ row : ScanTaskRow, f ≠ .result (.notifyExport row)) ∧
      σ'.scheduler.rootMap = σ.scheduler.rootMap ∧
      σ'.history.submitted = σ.history.submitted ∧ σ'.history.released = σ.history.released := by
  cases hs with
  | http hs =>
    cases hs with
    | @accept id root _ ho hn => exact .inl ⟨id, root, by simp, ho, hn, by simp, rfl, rfl, rfl⟩
    | _ => exact .inr (.inr ⟨by simp, rfl, rfl, rfl⟩)
  | result hs =>
    cases hs with
    | notify_export => exact .inr (.inl ⟨_, rfl, rfl, rfl, rfl⟩)
    | _ => exact .inr (.inr ⟨by simp, rfl, rfl, rfl⟩)
  | finish hs =>
    cases hs with
    | notify_finished =>
      exact .inr (.inr ⟨by simp, Scheduler.rootMap_notifyScanFinished, rfl, rfl⟩)
    | _ => exact .inr (.inr ⟨by simp, rfl, rfl, rfl⟩)
  | run hs | workForever hs | workerJob hs | main hs =>
    cases hs <;> exact .inr (.inr ⟨by simp, rfl, rfl, rfl⟩)
  | cancelScan => exact .inr (.inr ⟨by simp, rfl, rfl, rfl⟩)

theorem Step.mem_released (hs : Step tree σ x f σ' fs) (hr : s ∈ σ'.history.released) :
    s ∈ σ.history.released ∨ ∃ row, f = .result (.notifyExport row) ∧ row.scanId = s := by
  obtain ⟨-, -, -, -, -, -, -, -, h⟩ | ⟨row, hf, -, -, h⟩ | ⟨-, -, -, h⟩ := hs.roots
  · exact .inl (h ▸ hr)
  · rw [h] at hr
    rcases List.mem_cons.mp hr with rfl | hr
    · exact .inr ⟨row, hf, rfl⟩
    · exact .inl hr
  · exact .inl (h ▸ hr)

theorem Step.released_subset (hs : Step tree σ x f σ' fs) :
    σ.history.released ⊆ σ'.history.released := by
  obtain ⟨-, -, -, -, -, -, -, -, h⟩ | ⟨row, -, -, -, h⟩ | ⟨-, -, -, h⟩ := hs.roots
  · exact h ▸ List.Subset.refl _
  · exact h ▸ List.subset_cons_self _ _
  · exact h ▸ List.Subset.refl _

/-- A scan leaves the dispatch with the state `CANCELED` accepted or abandoned. -/
theorem RunStep.ended {pc : RunPc} (hs : RunStep tree σ x pc σ' fs)
    (hf : ¬(Frame.run pc).Abandons σ.scheduler) (hst : σ.scheduler.state s = some .canceled)
    (hin : ∃ data ∈ pc.data, data.scanId = s) (hout : ∀ data ∈ runData fs, data.scanId ≠ s) :
    ∃ queueFull, pc.phase s = .commit true queueFull := by
  obtain ⟨data, hd, rfl⟩ := hin
  cases hs <;> cases hd
  case commit_canceled queueFull _ => exact ⟨queueFull, by simp⟩
  case commit_canceled_refused hc => exact absurd (.inl hc) hf
  case commit_running hd | commit_pending hd | commit_failed hd => simp [hst] at hd
  case commit_other hc _ => exact absurd hst hc
  all_goals exact absurd rfl (hout data rfl)

/-- A scan dies before shutdown only by a step that abandons it or by its export. -/
theorem dead_of_step (h : (daemon cfg tree maxScanId).Reachable m)
    (hs : (daemon cfg tree maxScanId).step m a = some m') (hok : EndsAccepted m a)
    (hstop : m'.shared.scheduler.stopFlag = false) (hd : Dead m' s) :
    Dead m s ∨ ∃ row, m.top a.1 = some (.result (.notifyExport row)) ∧ row.scanId = s := by
  have hsound := sound_of_reachable h
  have hv := hsound.valid s
  obtain ⟨f, rest, fs, R, hf, hst, -⟩ := daemon_step hs
  have hf' := hok f (Machine.top_of_stack hf)
  rcases hd with hd | hd | ⟨hc, ha, hrun⟩ | hd
  · exact .inl (.inl (hst.state_eq hf' hstop hd (.inl rfl)))
  · exact .inl (.inr (.inl (hst.state_eq hf' hstop hd (.inr rfl))))
  · have ha' : s ∉ m.shared.history.accepted := fun hm => ha (hst.accepted_subset hm)
    have hzero : (life s m).accepted = 0 := List.count_eq_zero.mpr ha'
    rcases hst.state_of_canceled hstop hc with hc' | hr | ⟨hdisp, hne⟩
    · refine .inl (.inr (.inr (.inl ⟨hc', ha', fun data hdata hid => ?_⟩)))
      rcases hsound.step_cases hs with ⟨pc, gs, -, hpc, hgst, hpc', -, -, hi⟩ |
        ⟨-, -, -, -, -, -, -, -, hpc, -⟩
      · rw [hpc'] at hrun
        rw [hpc] at hdata
        rw [hi, hpc] at hf
        obtain ⟨rfl, -⟩ := List.cons.inj hf
        obtain ⟨q, hq⟩ := hgst.ended hf' hc' ⟨data, hdata, hid⟩ hrun
        have h₁ := hv.committing q (by simpa [life, lifeOf, hpc] using hq)
        omega
      · rw [runData, hpc] at hrun
        exact hrun data hdata hid
    · have h₁ := (hv.running hr).2.1
      omega
    · obtain ⟨data, hdata, hid⟩ := mem_runData_of_phase (hv.dispatching hdisp).1
      rcases hsound.step_cases hs with ⟨pc, -, -, hpc, -, -, -, -, hi⟩ |
        ⟨-, -, -, -, -, -, -, -, hpc, -⟩
      · rw [hi, hpc] at hf
        exact absurd (List.cons.inj hf).1.symm (hne pc)
      · rw [runData, hpc] at hrun
        exact absurd hid (hrun data hdata)
  · rcases hst.mem_released hd with hd | ⟨row, rfl, hid⟩
    · exact .inl (.inr (.inr (.inr hd)))
    · exact .inr ⟨row, Machine.top_of_stack hf, hid⟩

/-- Every taken root belongs to a scan that can still produce an export. -/
def RootsLive (m : DaemonState cfg) : Prop :=
  ∀ root ∈ m.shared.scheduler.rootMap, ∃ s, (s, root) ∈ m.shared.history.submitted ∧ ¬Dead m s

theorem RootsLive.step (h : (daemon cfg tree maxScanId).Reachable m) (hl : RootsLive m)
    (hs : (daemon cfg tree maxScanId).step m a = some m') (hok : EndsAccepted m a)
    (hstop : m'.shared.scheduler.stopFlag = false) : RootsLive m' := by
  have hsub := submitted_of_reachable h
  obtain ⟨f, rest, fs, R, hf, hst, -⟩ := daemon_step hs
  intro root hroot
  -- a root that stays taken keeps its scan
  have hkeep (hroot : root ∈ m.shared.scheduler.rootMap)
      (hne : ∀ row : ScanTaskRow, f = .result (.notifyExport row) → root ≠ row.submitRoot) :
      ∃ s, (s, root) ∈ m'.shared.history.submitted ∧ ¬Dead m' s := by
    obtain ⟨s, hsr, hlive⟩ := hl root hroot
    refine ⟨s, hst.submitted_subset hsr, fun hd => ?_⟩
    rcases dead_of_step h hs hok hstop hd with hd | ⟨row, htop, hid⟩
    · exact hlive hd
    · rw [Machine.top_of_stack hf, Option.some.injEq] at htop
      subst htop
      have hrow : (row.scanId, row.submitRoot) ∈ m.shared.history.submitted :=
        hsub.frames (.result (.notifyExport row))
          (Machine.mem_frames.mpr ⟨a.1, hf ▸ List.mem_cons_self⟩)
      exact hne row rfl (hsub.unique s _ _ hsr (hid ▸ hrow))
  obtain ⟨id, path, hne, -, hn, hp, hmap, hsub', hrel⟩ | ⟨row, hfr, hmap, -, -⟩ |
    ⟨hne, hmap, -, -⟩ := hst.roots
  · rw [hmap] at hroot
    rcases Finset.mem_insert.mp hroot with rfl | hroot
    · refine ⟨id, hsub' ▸ List.mem_cons_self, ?_⟩
      rintro (hd | hd | ⟨hd, -⟩ | hd)
      · simp [hp] at hd
      · simp [hp] at hd
      · simp [hp] at hd
      · obtain ⟨r, hr⟩ := hsub.released id (hrel ▸ hd)
        exact hsub.known id r hr hn
    · exact hkeep hroot fun row hrow => absurd hrow (hne row)
  · rw [hmap] at hroot
    obtain ⟨hne, hroot⟩ := Finset.mem_erase.mp hroot
    refine hkeep hroot fun row' hrow => ?_
    rw [hfr] at hrow
    cases hrow
    exact hne
  · exact hkeep (hmap ▸ hroot) fun row hrow => absurd hrow (hne row)

theorem Step.stopFlag_eq_false (hs : Step tree σ x f σ' fs)
    (hstop : σ'.scheduler.stopFlag = false) : σ.scheduler.stopFlag = false := by
  cases hs with
  | finish hs =>
    cases hs with
    | notify_finished => simpa using hstop
    | _ => exact hstop
  | main hs =>
    cases hs with
    | shutdown => simp [Scheduler.shutdown] at hstop
    | _ => exact hstop
  | http hs | run hs | workForever hs | workerJob hs | result hs => cases hs <;> exact hstop
  | cancelScan => exact hstop

/-- A refused root overlaps a taken one. -/
theorem Scheduler.overlap_of_conflict {sc : Scheduler} {id : ScanId} {path : Path}
    (h : (sc.submitScanRoot cfg id path).1 = .overlapConflict) :
    ∃ root ∈ sc.rootMap, pathsOverlap path root = true := by
  unfold submitScanRoot at h
  split_ifs at h with _ _ ho
  unfold checkNonOverlapPath at ho
  rw [Bool.and_eq_false_iff, decide_eq_false_iff_not, decide_eq_false_iff_not, not_not] at ho
  rcases ho with ho | ho
  · exact ⟨path, ho, by simp [pathsOverlap]⟩
  · push Not at ho
    simpa using ho

/-- Before shutdown, in the runs that end no scan before the manager has accepted it, every root
in `root_map` belongs to a scan that can still produce an export, so no submission is refused
with `OverlapConflict` on behalf of a dead scan. -/
theorem root_map_live (h : (daemon cfg tree maxScanId).Reach EndsAccepted m)
    (hstop : m.shared.scheduler.stopFlag = false) :
    (∀ root ∈ m.shared.scheduler.rootMap,
      ∃ s, (s, root) ∈ m.shared.history.submitted ∧ ¬Dead m s) ∧
    ∀ id path, (m.shared.scheduler.submitScanRoot cfg id path).1 = .overlapConflict →
      ∃ s root, (s, root) ∈ m.shared.history.submitted ∧ pathsOverlap path root = true ∧
        ¬Dead m s := by
  have hl : RootsLive m := by
    refine h.invariant (P := fun m => m.shared.scheduler.stopFlag = false → RootsLive m) ?_
      (fun n a n' hn hok hs hl hstop => ?_) hstop
    · simp [RootsLive, daemon, Shared.new, Scheduler.new]
    · obtain ⟨f, rest, fs, R, -, hst, -⟩ := daemon_step hs
      exact (hl (hst.stopFlag_eq_false hstop)).step hn.reachable hs hok hstop
  refine ⟨hl, fun id path hc => ?_⟩
  obtain ⟨root, hroot, ho⟩ := Scheduler.overlap_of_conflict hc
  obtain ⟨s, hsr, hlive⟩ := hl root hroot
  exact ⟨s, root, hsr, ho, hlive⟩

/-- The root of a running scan is taken by that scan. -/
theorem root_map_live_running :
    let m := (daemon (smallConfig 1 1 1) (fun _ => .file 0 0) 0).run
      (serve (.submit ['/', 'a']) 2 ++ steps 5 .run)
    m.shared.scheduler.state 1 = some .running ∧
      ∃ s, (s, ['/', 'a']) ∈ m.shared.history.submitted ∧ ¬Dead m s :=
  ⟨by decide, (root_map_live (System.reach_run (by decide)) (by decide)).1 _ (by decide)⟩

/-- A scan that is canceled while it is pending keeps its root, and the root is refused. -/
theorem root_map_dead :
    ∃ m, (daemon (smallConfig 1 1 1) (fun _ => .file 0 0) 0).Reachable m ∧
      m.shared.scheduler.stopFlag = false ∧ ['/', 'a'] ∈ m.shared.scheduler.rootMap ∧
      (∀ p ∈ m.shared.history.submitted, m.shared.scheduler.state p.1 = some .dropped) ∧
      (m.shared.scheduler.submitScanRoot (smallConfig 1 1 1) 2 ['/', 'a']).1 = .overlapConflict :=
  ⟨_, System.reachable_run _ (serve (.submit ['/', 'a']) 2 ++ serve (.cancel 1) 1),
    by decide, by decide, by decide, by decide⟩

end ScanDaemon
