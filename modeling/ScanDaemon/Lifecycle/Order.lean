import ScanDaemon.Lifecycle.Submitted

/-! # The order of the scan ids

`submit_scan_root` draws the id before it takes the mutex, so ids may be
admitted in another order than they are drawn. For overlapping roots the two
orders agree when the workers take the mutex in the order of their ids.
-/

namespace ScanDaemon

open Interleave

variable {cfg : Config} {tree : ScanId → FsNode} {σ σ' : Shared cfg} {x : Input} {f : Frame}
  {fs : List Frame} {maxScanId : ScanId} {m m' : DaemonState cfg} {a : Thread cfg × Input}

/-- The id and the root that a worker brings to the mutex of `submit_scan_root`. -/
def Frame.drawn : Frame → Option (ScanId × Path)
  | .http (.locked id rootPath) => some (id, rootPath)
  | _ => none

/-- No worker takes the mutex for a root that is free while another one waits there with a smaller
id for an overlapping root. -/
def InIdOrder (m : DaemonState cfg) (a : Thread cfg × Input) : Prop :=
  ∀ f ∈ m.top a.1, ∀ p ∈ f.drawn, m.shared.scheduler.checkNonOverlapPath p.2 = true →
    ∀ i, ∀ g ∈ m.stack i, ∀ q ∈ g.drawn, pathsOverlap q.2 p.2 = true → p.1 ≤ q.1

instance (m : DaemonState cfg) (a : Thread cfg × Input) : Decidable (InIdOrder m a) :=
  inferInstanceAs (Decidable (∀ f ∈ m.top a.1, ∀ p ∈ f.drawn, _ → ∀ i, ∀ g ∈ m.stack i,
    ∀ q ∈ g.drawn, _ → _))

/-- What a step does to the ids: it draws one, admits one, or leaves them alone. -/
theorem Step.ids (hs : Step tree σ x f σ' fs) :
    (∃ root, σ'.scheduler.nextScanId = σ.scheduler.nextScanId + 1 ∧
      σ'.history.submitted = σ.history.submitted ∧
      ∀ g ∈ fs, ∀ p ∈ g.drawn, p = (σ.scheduler.nextScanId, root)) ∨
    (∃ p, f.drawn = some p ∧ σ.scheduler.checkNonOverlapPath p.2 = true ∧
      σ.scheduler.state p.1 = none ∧ σ'.history.submitted = p :: σ.history.submitted ∧
      σ'.scheduler.nextScanId = σ.scheduler.nextScanId ∧ fs = []) ∨
    (σ'.history.submitted = σ.history.submitted ∧
      σ'.scheduler.nextScanId = σ.scheduler.nextScanId ∧ ∀ g ∈ fs, g.drawn = none) := by
  cases hs with
  | http hs =>
    cases hs with
    | @draw root _ => exact .inl ⟨root, rfl, rfl, by simp [Frame.drawn]⟩
    | accept _ ho hn => exact .inr (.inl ⟨_, rfl, ho, hn, rfl, rfl, rfl⟩)
    | _ => exact .inr (.inr ⟨rfl, rfl, by simp [Frame.drawn]⟩)
  | finish hs =>
    cases hs with
    | notify_finished =>
      exact .inr (.inr ⟨rfl, Scheduler.nextScanId_notifyScanFinished, by simp [Frame.drawn]⟩)
    | _ => exact .inr (.inr ⟨rfl, rfl, by simp [Frame.drawn]⟩)
  | run hs | workForever hs | workerJob hs | result hs | main hs =>
    cases hs <;> exact .inr (.inr ⟨rfl, rfl, by simp [Frame.drawn]⟩)
  | cancelScan => exact .inr (.inr ⟨rfl, rfl, by simp⟩)

/-- The admitted ids increase over overlapping roots, and no smaller id is still to come. -/
structure IdsOrdered (m : DaemonState cfg) : Prop where
  drawn : ∀ g ∈ m.frames, ∀ q ∈ g.drawn, q.1 < m.shared.scheduler.nextScanId
  admitted : ∀ p ∈ m.shared.history.submitted, p.1 < m.shared.scheduler.nextScanId
  pending : ∀ p ∈ m.shared.history.submitted, ∀ g ∈ m.frames, ∀ q ∈ g.drawn,
    pathsOverlap q.2 p.2 = true → p.1 ≤ q.1
  sorted : m.shared.history.submitted.Pairwise fun q p => pathsOverlap q.2 p.2 = true → p.1 < q.1

theorem IdsOrdered.step (h : (daemon cfg tree maxScanId).Reachable m) (ho : IdsOrdered m)
    (hs : (daemon cfg tree maxScanId).step m a = some m') (hok : InIdOrder m a) :
    IdsOrdered m' := by
  obtain ⟨f, rest, fs, R, hf, hst, -, hF, hF'⟩ := daemon_step hs
  have hmem : ∀ g ∈ m'.frames, g ∈ fs ∨ g ∈ m.frames := by
    intro g hg
    rw [hF', Multiset.mem_add] at hg
    exact hg.imp_right fun hg => hF ▸ Multiset.mem_cons_of_mem hg
  rcases hst.ids with ⟨root, hnext, hsub, hfs⟩ | ⟨p, hp, hfree, hnew, hsub, hnext, rfl⟩ |
    ⟨hsub, hnext, hfs⟩
  · refine ⟨?_, ?_, ?_, hsub ▸ ho.sorted⟩
    · intro g hg q hq
      rcases hmem g hg with hg | hg
      · rw [hfs g hg q hq, hnext]
        exact Nat.lt_succ_self _
      · exact hnext ▸ Nat.lt_succ_of_lt (ho.drawn g hg q hq)
    · intro p hp
      exact hnext ▸ Nat.lt_succ_of_lt (ho.admitted p (hsub ▸ hp))
    · intro p hp g hg q hq hover
      rcases hmem g hg with hg | hg
      · rw [hfs g hg q hq]
        exact (ho.admitted p (hsub ▸ hp)).le
      · exact ho.pending p (hsub ▸ hp) g hg q hq hover
  · have hmem : ∀ g ∈ m'.frames, g ∈ m.frames := fun g hg => by simpa using hmem g hg
    have htop : f ∈ m.frames := hF ▸ Multiset.mem_cons_self _ _
    refine ⟨?_, ?_, ?_, ?_⟩
    · intro g hg q hq
      exact hnext ▸ ho.drawn g (hmem g hg) q hq
    · intro q hq
      rw [hsub] at hq
      rw [hnext]
      rcases List.mem_cons.mp hq with rfl | hq
      · exact ho.drawn f htop q hp
      · exact ho.admitted q hq
    · -- the worker that takes the mutex has the smallest id of those waiting there
      intro q hq g hg r hr hover
      rw [hsub] at hq
      rcases List.mem_cons.mp hq with rfl | hq
      · obtain ⟨i, hi⟩ := Machine.mem_frames.mp (hmem g hg)
        exact hok f (Machine.top_of_stack hf) q hp hfree i g hi r hr hover
      · exact ho.pending q hq g (hmem g hg) r hr hover
    · rw [hsub, List.pairwise_cons]
      refine ⟨fun q hq hover => ?_, ho.sorted⟩
      refine lt_of_le_of_ne (ho.pending q hq f htop p hp hover) fun he => ?_
      exact (submitted_of_reachable h).known q.1 q.2 hq (he ▸ hnew)
  · have hmem : ∀ g ∈ m'.frames, ∀ q ∈ g.drawn, g ∈ m.frames := by
      intro g hg q hq
      refine (hmem g hg).resolve_left fun hg => ?_
      rw [hfs g hg] at hq
      cases hq
    refine ⟨?_, ?_, ?_, hsub ▸ ho.sorted⟩
    · intro g hg q hq
      exact hnext ▸ ho.drawn g (hmem g hg q hq) q hq
    · intro p hp
      exact hnext ▸ ho.admitted p (hsub ▸ hp)
    · intro p hp g hg q hq hover
      exact ho.pending p (hsub ▸ hp) g (hmem g hg q hq) q hq hover

/-- In the runs in which the workers with overlapping roots take the mutex of `submit_scan_root`
in the order of their ids, a scan that is admitted before another one with the same or an
overlapping root has the smaller id. -/
theorem admitted_in_order (h : (daemon cfg tree maxScanId).Reach InIdOrder m) :
    m.shared.history.submitted.Pairwise fun later earlier =>
      pathsOverlap later.2 earlier.2 = true → earlier.1 < later.1 := by
  have ho : IdsOrdered m := by
    refine h.invariant ⟨?_, ?_, ?_, .nil⟩ fun n a n' hn hok hs ho => ho.step hn.reachable hs hok
    · intro g hg q hq
      obtain ⟨i, hi⟩ := Machine.mem_frames.mp hg
      cases i <;> simp [daemon, initialStack] at hi <;> subst hi <;> cases hq
    · intro p hp
      cases hp
    · intro p hp
      cases hp
  exact ho.sorted

/-! ## Two workers -/

/-- A daemon with two HTTP workers and one scan worker. -/
def pairConfig : Config := { smallConfig 1 1 1 with fdPoolNumThreads := 2 }

/-- One step of a thread, with a request for the HTTP workers. -/
def pairStep (t : Thread pairConfig) (request : Option Request) : Thread pairConfig × Input :=
  (t, ⟨request, 0, false⟩)

/-- The requests of two workers for the same root, up to their second step. -/
def pairDraw (first second : Fin 2) : List (Thread pairConfig × Input) :=
  [pairStep (.http first) (some (.submit ['/', 'a'])), pairStep (.http first) none,
    pairStep (.http second) (some (.submit ['/', 'a'])), pairStep (.http second) none]

/-- A worker takes the mutex. -/
def pairLock (i : Fin 2) : List (Thread pairConfig × Input) := [pairStep (.http i) none]

/-- The scan that is pending runs, is exported and gives its root back. -/
def pairExport : List (Thread pairConfig × Input) :=
  List.replicate 5 (pairStep .run none) ++
    List.replicate 12 (pairStep (.worker ⟨0, Nat.one_pos⟩) none) ++
    List.replicate 5 (pairStep .result none)

/-- The first worker takes the mutex first. -/
theorem admitted_in_order_pair :
    let m := (daemon pairConfig (fun _ => .file 0 0) 0).run
      (pairDraw 0 1 ++ pairLock 0 ++ pairExport ++ pairLock 1)
    m.shared.history.submitted = [(2, ['/', 'a']), (1, ['/', 'a'])] ∧
      m.shared.history.submitted.Pairwise fun later earlier =>
        pathsOverlap later.2 earlier.2 = true → earlier.1 < later.1 :=
  ⟨by decide +kernel, admitted_in_order (System.reach_run (by decide +kernel))⟩

/-- The worker with the first id is held up before the mutex until the scan with the second id is
exported; then the same root is admitted with the smaller id. -/
theorem admitted_out_of_order :
    ∃ m, (daemon pairConfig (fun _ => .file 0 0) 0).Reachable m ∧
      m.shared.history.submitted = [(1, ['/', 'a']), (2, ['/', 'a'])] ∧
      m.shared.history.released = [2] ∧
      ¬m.shared.history.submitted.Pairwise fun later earlier =>
        pathsOverlap later.2 earlier.2 = true → earlier.1 < later.1 := by
  exact ⟨_, System.reachable_run _ (pairDraw 0 1 ++ pairLock 1 ++ pairExport ++ pairLock 0),
    by decide +kernel, by decide +kernel, by decide +kernel⟩

end ScanDaemon
