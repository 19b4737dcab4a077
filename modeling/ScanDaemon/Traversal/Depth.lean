import ScanDaemon.Traversal.Released

/-! # The depth of the recursion

A worker that finds no slot for a child runs the child itself, on top of the
job of its directory. The jobs on the stack of a worker lead down one branch of
the tree, so that the recursion is never deeper than the tree.
-/

namespace ScanDaemon

open Interleave

mutual

/-- The number of levels of a tree that a scan visits. -/
def FsNode.height : FsNode → ℕ
  | .dir _ _ entries => FsNode.entryHeight entries + 1
  | .lstatError _ | .link _ _ | .file _ _ | .unreadable _ _ _ => 1

def FsNode.entryHeight : List (Path × FsNode) → ℕ
  | [] => 0
  | (name, node) :: entries =>
    Nat.max (if isDots name then 0 else node.height) (FsNode.entryHeight entries)

end

variable {cfg : Config} {tree : ScanId → FsNode} {σ σ' : Shared cfg} {x : Input} {f : Frame}
  {fs rest l : List Frame} {maxScanId : ScanId} {m m' : DaemonState cfg} {a : Thread cfg × Input}
  {data c : ScanData} {pc : JobPc}

theorem FsNode.height_pos (node : FsNode) : 0 < node.height := by
  cases node <;> simp [FsNode.height]

theorem FsNode.height_le_entryHeight {entries : List (Path × FsNode)} {entry : Path × FsNode}
    (he : entry ∈ entries) (hd : isDots entry.1 = false) :
    entry.2.height ≤ FsNode.entryHeight entries := by
  induction entries with
  | nil => cases he
  | cons e entries ih =>
    rw [FsNode.entryHeight]
    rcases List.mem_cons.mp he with rfl | he
    · rw [if_neg (by simp [hd])]
      exact Nat.le_max_left _ _
    · exact (ih he).trans (Nat.le_max_right _ _)

theorem ScanData.height_lt (hc : c ∈ data.children) : c.node.height < data.node.height := by
  unfold ScanData.children at hc
  cases hn : data.node with
  | dir mtime blocks entries =>
    simp only [hn, List.mem_map, List.mem_filter] at hc
    obtain ⟨entry, ⟨he, hd⟩, rfl⟩ := hc
    rw [FsNode.height]
    exact Nat.lt_succ_of_le (FsNode.height_le_entryHeight he (by simpa using hd))
  | _ => simp [hn] at hc

/-- The job lies below the other one in the tree of the same scan. -/
def ScanData.Under (c data : ScanData) : Prop :=
  c.scanId = data.scanId ∧ c.node.height < data.node.height

theorem ScanData.Under.trans {d : ScanData} (h : c.Under data) (h' : data.Under d) : c.Under d :=
  ⟨h.1.trans h'.1, h.2.trans h'.2⟩

theorem ScanData.under_of_mem (hc : c ∈ data.children) : c.Under data :=
  ⟨ScanData.scanId_of_mem_children hc, ScanData.height_lt hc⟩

/-- The job lies in the tree of its scan. -/
def ScanData.Inside (tree : ScanId → FsNode) (data : ScanData) : Prop :=
  data.node.height ≤ (tree data.scanId).height

theorem ScanData.Under.inside (h : c.Under data) (hd : data.Inside tree) : c.Inside tree := by
  unfold Inside at hd ⊢
  rw [h.1]
  exact h.2.le.trans hd

/-- The children that a program point of `worker_job` still has to hand on. -/
def JobPc.pending : JobPc → List ScanData
  | .entry | .scan => []
  | .loop rest => rest
  | .submit child rest | .slots child rest | .push child rest => child :: rest

/-- The jobs in a frame lie in the tree, the pending ones below the job itself. -/
def Frame.Inside (tree : ScanId → FsNode) : Frame → Prop
  | .workerJob data pc => data.Inside tree ∧ ∀ c ∈ pc.pending, c.Under data
  | _ => True

/-- The jobs on a stack, the top one first. -/
def jobsOf (l : List Frame) : List ScanData :=
  l.filterMap fun
    | .workerJob data _ => some data
    | _ => none

@[simp] theorem jobsOf_append {l l' : List Frame} : jobsOf (l ++ l') = jobsOf l ++ jobsOf l' :=
  List.filterMap_append

/-- What a step does to the jobs that its frame stands for. -/
theorem Step.jobs (hs : Step tree σ x f σ' fs) : jobsOf fs = jobsOf [f] ∨ jobsOf fs = [] ∨
    (∃ data pc c, f = .workerJob data pc ∧ c ∈ pc.pending ∧ jobsOf fs = [c, data]) ∨
    f = .workForever ∧ ∃ data, jobsOf fs = [data] := by
  cases hs with
  | workForever hs =>
    cases hs with
    | exit => exact .inl rfl
    | take => exact .inr (.inr (.inr ⟨rfl, _, rfl⟩))
  | workerJob hs =>
    cases hs with
    | canceled | loop_end | loop_break => exact .inr (.inl rfl)
    | slots_taken | full => exact .inr (.inr (.inl ⟨_, _, _, rfl, List.mem_cons_self, rfl⟩))
    | _ => exact .inl rfl
  | http hs | run hs | finish hs | result hs | main hs => cases hs <;> exact .inl rfl
  | cancelScan => exact .inl rfl

theorem Step.inside (hs : Step tree σ x f σ' fs) (hf : f.Inside tree)
    (hq : ∀ data ∈ σ.manager.scanPool.jobQueue.container, data.Inside tree) :
    (∀ g ∈ fs, g.Inside tree) ∧
      ∀ data ∈ σ'.manager.scanPool.jobQueue.container, data.Inside tree := by
  cases hs with
  | workForever hs =>
    cases hs with
    | exit hc => exact ⟨by simp, by simp [hc]⟩
    | @take data rest hc =>
      rw [hc] at hq
      refine ⟨?_, fun d hd => hq d (List.mem_append_left _ (by simpa using hd))⟩
      simpa [Frame.Inside, JobPc.pending] using hq data (by simp)
  | workerJob hs =>
    obtain ⟨hin, hpend⟩ := hf
    cases hs with
    | scan_dropped | scan =>
      refine ⟨?_, hq⟩
      simpa [Frame.Inside, JobPc.pending, hin] using fun c hc => ScanData.under_of_mem hc
    | @pushed child rest =>
      obtain ⟨hc, hpend⟩ := List.forall_mem_cons.mp hpend
      refine ⟨by simpa [Frame.Inside, JobPc.pending] using ⟨hin, hpend⟩, fun d hd => ?_⟩
      have hcases : d ∈ σ.manager.scanPool.jobQueue.container ∨ d = child := by simpa using hd
      rcases hcases with hd | rfl
      · exact hq d hd
      · exact hc.inside hin
    | slots_taken | full =>
      obtain ⟨hc, hpend⟩ := List.forall_mem_cons.mp hpend
      exact ⟨by simpa [Frame.Inside, JobPc.pending, hin] using ⟨hc.inside hin, hpend⟩, hq⟩
    | canceled | loop_end | loop_break => exact ⟨by simp [Frame.Inside], hq⟩
    | shutdown => exact ⟨by simp [Frame.Inside, JobPc.pending, hin], hq⟩
    | enter => exact ⟨by simp [Frame.Inside, JobPc.pending, hin], hq⟩
    | loop_next | submit | slots_free =>
      exact ⟨by simpa [Frame.Inside, JobPc.pending] using
        ⟨hin, List.forall_mem_cons.mp hpend⟩, hq⟩
  | run hs =>
    cases hs with
    | @accept data =>
      refine ⟨by simp [Frame.Inside], fun d hd => ?_⟩
      have hcases : d ∈ σ.manager.scanPool.jobQueue.container ∨ d = rootJob tree data := by
        simpa using hd
      rcases hcases with hd | rfl
      · exact hq d hd
      · exact le_rfl
    | _ => exact ⟨by simp [Frame.Inside], by simpa using hq⟩
  | http hs | finish hs | result hs | main hs =>
    cases hs <;> exact ⟨by simp [Frame.Inside], by simpa using hq⟩
  | cancelScan => exact ⟨by simp, by simpa using hq⟩

/-- The jobs of the daemon lie in the trees of their scans, and those on one stack below each
other. -/
structure Branching (tree : ScanId → FsNode) (m : DaemonState cfg) : Prop where
  queued : ∀ data ∈ m.shared.manager.scanPool.jobQueue.container, data.Inside tree
  frames : ∀ f ∈ m.frames, f.Inside tree
  nested : ∀ j, (jobsOf (m.stack (.worker j))).Pairwise ScanData.Under

theorem Branching.step (h : (daemon cfg tree maxScanId).Reachable m) (hb : Branching tree m)
    (hs : (daemon cfg tree maxScanId).step m a = some m') : Branching tree m' := by
  obtain ⟨f, rest, fs, R, hf, hst, hm', hF, hF'⟩ := daemon_step hs
  have hfF : f ∈ m.frames := hF ▸ Multiset.mem_cons_self _ _
  obtain ⟨hfs, hq⟩ := hst.inside (hb.frames f hfF) hb.queued
  refine ⟨hq, fun g hg => ?_, fun j => ?_⟩
  · rw [hF', Multiset.mem_add] at hg
    rcases hg with hg | hg
    · exact hfs g hg
    · exact hb.frames g (hF ▸ Multiset.mem_cons_of_mem hg)
  · have hold := hb.nested j
    by_cases hi : a.1 = .worker j
    · have hsh := (sound_of_reachable h).shape a.1
      rw [hi] at hf hsh hm'
      rw [hf] at hold hsh
      rw [hm', Function.update_self, jobsOf_append]
      have hsplit : jobsOf (f :: rest) = jobsOf [f] ++ jobsOf rest := jobsOf_append (l := [f])
      rw [hsplit] at hold
      have hrest : (jobsOf rest).Pairwise ScanData.Under := (List.pairwise_append.mp hold).2.1
      rcases hst.jobs with he | he | ⟨data, pc, c, rfl, hc, he⟩ | ⟨rfl, data, he⟩ <;> rw [he]
      · exact hold
      · exact hrest
      · -- the child is below its directory, and so below all jobs further down
        have hunder := (hb.frames _ hfF).2 c hc
        refine List.pairwise_cons.mpr ⟨fun d hd => ?_, hold⟩
        rcases List.mem_cons.mp hd with rfl | hd
        · exact hunder
        · exact hunder.trans ((List.pairwise_cons.mp hold).1 d hd)
      · have hnil : rest = [] := by
          change WorkerShape (.workForever :: rest) at hsh
          generalize hl : Frame.workForever :: rest = l at hsh
          cases hsh with
          | exited => cases hl
          | @working l hl' =>
            cases l with
            | nil => exact (List.cons.inj hl).2
            | cons g l =>
              obtain ⟨rfl, -⟩ := List.cons.inj hl
              exact (hl' _ List.mem_cons_self).elim
        rw [hnil]
        exact List.pairwise_singleton _ _
    · rw [hm', Function.update_of_ne (Ne.symm hi)]
      exact hold

theorem branching_of_reachable (h : (daemon cfg tree maxScanId).Reachable m) :
    Branching tree m := by
  refine h.invariant ⟨?_, fun f hf => ?_, fun j => .nil⟩ fun _ _ _ hn _ hs hb => hb.step hn hs
  · simp [daemon, Shared.new, Manager.new, JobQueue.new]
  · obtain ⟨i, hi⟩ := Machine.mem_frames.mp hf
    cases i <;> simp [daemon, initialStack] at hi <;> subst hi <;> trivial

/-- Jobs below each other are not more than the levels of the tree. -/
theorem length_jobs_le {jobs : List ScanData} {H : ℕ} (h : jobs.Pairwise ScanData.Under)
    (hin : ∀ data ∈ jobs, data.node.height ≤ H) : jobs.length ≤ H := by
  have hnodup : (jobs.map fun data => data.node.height).Nodup := by
    rw [List.Nodup, List.pairwise_map]
    exact h.imp fun hu => hu.2.ne
  have hsub : (jobs.map fun data => data.node.height).toFinset ⊆ Finset.Icc 1 H := by
    intro n hn
    obtain ⟨data, hd, rfl⟩ := List.mem_map.mp (List.mem_toFinset.mp hn)
    exact Finset.mem_Icc.mpr ⟨data.node.height_pos, hin data hd⟩
  have hcard := Finset.card_le_card hsub
  rwa [List.toFinset_card_of_nodup hnodup, List.length_map, Nat.card_Icc,
    Nat.add_sub_cancel] at hcard

theorem mem_jobsOf (h : .workerJob data pc ∈ l) : data ∈ jobsOf l :=
  List.mem_filterMap.mpr ⟨_, h, rfl⟩

/-- A worker runs jobs on top of each other no deeper than the tree of their scan, whatever the
queue was filled with: besides them its stack has the loop of the worker and at most one frame of
`task_on_job_finish`. -/
theorem worker_depth_le (h : (daemon cfg tree maxScanId).Reachable m)
    {j : Fin cfg.scanPoolNumThreads} (hf : .workerJob data pc ∈ m.stack (.worker j)) :
    (jobsOf (m.stack (.worker j))).length ≤ (tree data.scanId).height ∧
      (m.stack (.worker j)).length ≤ (jobsOf (m.stack (.worker j))).length + 2 ∧
      ∀ c ∈ jobsOf (m.stack (.worker j)), c.scanId = data.scanId := by
  have hb := branching_of_reachable h
  have hpair := hb.nested j
  have hmem := mem_jobsOf hf
  have hsame : ∀ c ∈ jobsOf (m.stack (.worker j)), c.scanId = data.scanId := by
    intro c hc
    by_cases he : c = data
    · rw [he]
    · obtain ⟨l₁, l₂, hl⟩ := List.append_of_mem hmem
      rw [hl] at hpair hc
      obtain ⟨-, htail, hcross⟩ := List.pairwise_append.mp hpair
      rcases List.mem_append.mp hc with hc | hc
      · exact (hcross c hc data List.mem_cons_self).1
      · rcases List.mem_cons.mp hc with rfl | hc
        · exact absurd rfl he
        · exact ((List.pairwise_cons.mp htail).1 c hc).1.symm
  refine ⟨length_jobs_le hpair fun c hc => ?_, ?_, hsame⟩
  · obtain ⟨f, hmemf, he⟩ := List.mem_filterMap.mp hc
    cases f with
    | workerJob d pc =>
      obtain rfl := Option.some.inj he
      have hin := (hb.frames _ (Machine.mem_frames.mpr ⟨_, hmemf⟩)).1
      rw [← hsame _ hc]
      exact hin
    | _ => cases he
  · have hwait := tail_waits_of_reachable h j
    have hsh : WorkerShape (m.stack (.worker j)) := (sound_of_reachable h).shape (.worker j)
    generalize m.stack (.worker j) = l at hsh hwait
    cases hsh with
    | exited => simp
    | @working l hl =>
      cases l with
      | nil => simp [jobsOf]
      | cons g l =>
        -- the frames below the top are jobs that wait
        have hjobs : (jobsOf l).length = l.length := by
          rw [jobsOf, List.filterMap_length_eq_length]
          intro f hf
          have hw := hwait f (by simp [hf])
          have hj := hl f (List.mem_cons_of_mem _ hf)
          cases f with
          | workerJob d pc => rfl
          | finish id pc => exact hw.elim
          | _ => exact hj.elim
        have hle : l.length ≤ (jobsOf (g :: l ++ [Frame.workForever])).length := by
          have hsplit : jobsOf (g :: l ++ [Frame.workForever]) = jobsOf [g] ++ jobsOf l ++ [] := by
            rw [jobsOf_append, ← List.singleton_append, jobsOf_append]
            rfl
          rw [hsplit]
          simp only [List.length_append, hjobs]
          omega
        simp only [List.cons_append, List.length_cons, List.length_append, List.length_nil] at hle ⊢
        omega

/-- A worker on a file for which the queue had no slot. -/
theorem worker_depth_le_file :
    let m := (daemon (smallConfig 2 1 1) (fun _ => smallTree) 0).run
      (serve (.submit ['/', 'a']) 2 ++ steps 5 .run ++ steps 6 (.worker ⟨0, Nat.one_pos⟩))
    (jobsOf (m.stack (.worker ⟨0, Nat.one_pos⟩))).length = 2 ∧
      (jobsOf (m.stack (.worker ⟨0, Nat.one_pos⟩))).length ≤ smallTree.height := by
  intro m
  have hst : m.stack (.worker ⟨0, Nat.one_pos⟩) =
      [.workerJob ⟨1, ['/', 'a', '/', 'b'], .file 0 0⟩ .entry,
        .workerJob ⟨1, ['/', 'a'], smallTree⟩ (.loop []), .workForever] := by rfl
  have hmem : .workerJob ⟨1, ['/', 'a'], smallTree⟩ (.loop []) ∈
      m.stack (.worker ⟨0, Nat.one_pos⟩) := by simp [hst]
  exact ⟨by rw [hst]; rfl, (worker_depth_le (System.reachable_run _ _) hmem).1⟩

end ScanDaemon
