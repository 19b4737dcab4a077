import ScanDaemon.Lifecycle.Refinement
import ScanDaemon.Runtime.History

/-! # The jobs of the pool

Everything in the scan pool, queued or on the stack of a worker, belongs to a
scan whose root job has been accepted.
-/

namespace ScanDaemon

open Interleave

variable {cfg : Config} {tree : ScanId → FsNode} {σ σ' : Shared cfg} {x : Input} {f g : Frame}
  {fs : List Frame} {s : ScanId}

/-- The scan that a frame works for. -/
@[simp] def Frame.scan : Frame → Option ScanId
  | .workerJob data _ => some data.scanId
  | .finish id _ => some id
  | _ => none

/-- What a job leaves behind works for the same scan. -/
theorem Step.scan_of_isJob (hs : Step tree σ x f σ' fs) (hj : f.IsJob) (hg : g ∈ fs)
    (h : g.scan = some s) : f.scan = some s := by
  cases hs with
  | workerJob hs =>
    cases hs with
    | slots_taken | full | shutdown =>
      have hc := hj _ List.mem_cons_self
      simp only [List.mem_cons, List.not_mem_nil, or_false] at hg
      rcases hg with rfl | rfl
      · exact (congrArg some hc).symm.trans h
      · exact h
    | _ =>
      simp only [List.mem_cons, List.not_mem_nil, or_false] at hg
      subst hg
      exact h
  | finish hs =>
    cases hs with
    | gauge => simp at hg
    | _ =>
      simp only [List.mem_cons, List.not_mem_nil, or_false] at hg
      subst hg
      exact h
  | _ => exact hj.elim

/-- A job enters the queue with the acceptance of its scan or from a job of its scan. -/
theorem Step.mem_container (hs : Step tree σ x f σ' fs)
    (hj : ∀ data pc, f = .workerJob data pc → f.IsJob) {data : ScanData}
    (hd : data ∈ σ'.manager.scanPool.jobQueue.container) :
    data ∈ σ.manager.scanPool.jobQueue.container ∨ data.scanId ∈ σ'.history.accepted ∨
      ∃ job pc, f = .workerJob job pc ∧ job.scanId = data.scanId := by
  cases hs with
  | run hs =>
    cases hs with
    | accept =>
      rcases List.mem_append.mp hd with hd | hd
      · exact .inl hd
      · rw [List.mem_singleton.mp hd]
        exact .inr (.inl List.mem_cons_self)
    | _ => exact .inl hd
  | workForever hs =>
    cases hs with
    | exit => exact .inl hd
    | take hc => exact .inl (hc ▸ List.mem_append_left _ hd)
  | @workerJob d pc _ _ hs =>
    have hj := hj d pc rfl
    cases hs with
    | pushed =>
      rcases List.mem_append.mp hd with hd | hd
      · exact .inl hd
      · rw [List.mem_singleton.mp hd]
        exact .inr (.inr ⟨d, _, rfl, (hj _ List.mem_cons_self).symm⟩)
    | _ => exact .inl hd
  | http hs | finish hs | result hs | main hs => cases hs <;> exact .inl hd
  | cancelScan => exact .inl (by simpa using hd)

/-- Every job of the pool belongs to an accepted scan. -/
structure Owned (m : DaemonState cfg) : Prop where
  stack : ∀ i, ∀ f ∈ m.stack (.worker i), ∀ s, f.scan = some s → s ∈ m.shared.history.accepted
  queue : ∀ data ∈ m.shared.manager.scanPool.jobQueue.container,
    data.scanId ∈ m.shared.history.accepted

variable {maxScanId : ScanId} {m m' : DaemonState cfg} {a : Thread cfg × Input}

theorem Owned.step (hw : WellFormed m) (h : Owned m)
    (hs : (daemon cfg tree maxScanId).step m a = some m') : Owned m' := by
  obtain ⟨f, rest, fs, R, hf, hst, hm', -, -⟩ := daemon_step hs
  have hsub := hst.accepted_subset
  have hsh := hw.shape a.1
  rw [hf] at hsh
  refine ⟨fun i g hg s hscan => ?_, fun data hd => ?_⟩
  · rw [hm'] at hg
    by_cases hi : a.1 = .worker i
    · rw [hi, Function.update_self] at hg
      rw [hi] at hf hsh
      rcases List.mem_append.mp hg with hg | hg
      · rcases WorkerShape.isJob hsh with hj | rfl
        · have hfs := hst.scan_of_isJob hj hg hscan
          exact hsub (h.stack i f (hf ▸ List.mem_cons_self) s hfs)
        · generalize m'.shared = τ at hst hsub ⊢
          cases hst with
          | workForever hst =>
            cases hst with
            | exit => simp at hg
            | @take data _ hc =>
              simp only [List.mem_cons, List.not_mem_nil, or_false] at hg
              rcases hg with rfl | rfl
              · cases hscan
                exact hsub (h.queue data (by simp [hc]))
              · cases hscan
      · exact hsub (h.stack i g (hf ▸ List.mem_cons_of_mem _ hg) s hscan)
    · rw [Function.update_of_ne (Ne.symm hi)] at hg
      exact hsub (h.stack i g hg s hscan)
  · have hj : ∀ data pc, f = .workerJob data pc → f.IsJob := by
      rintro data pc rfl
      exact hsh.worker.1
    rcases hst.mem_container hj hd with hd | hd | ⟨job, pc, rfl, hid⟩
    · exact hsub (h.queue data hd)
    · exact hd
    · obtain ⟨j, hi⟩ := hsh.worker.2
      rw [hi] at hf
      exact hsub (h.stack j _ (hf ▸ List.mem_cons_self) _ (by simp [hid]))

theorem owned_of_reachable (h : (daemon cfg tree maxScanId).Reachable m) : Owned m := by
  refine h.invariant ⟨?_, ?_⟩ fun n a n' hn _ hs ho =>
    ho.step (sound_of_reachable hn).toWellFormed hs
  · simp [daemon, initialStack]
  · simp [daemon, Shared.new, Manager.new, JobQueue.new]

end ScanDaemon
