import ScanDaemon.Lifecycle.Submitted
import ScanDaemon.Lifecycle.Delivery
import ScanDaemon.Lifecycle.Roots

/-! # The lock on the roots

A scan holds its root in `root_map` from its admission until the export thread
gives the root back. The roots of the scans that are still live are pairwise
disjoint, and giving one back does not touch the root of another.
-/

namespace ScanDaemon

open Interleave

variable {cfg : Config} {tree : ScanId → FsNode} {σ σ' : Shared cfg} {x : Input} {f : Frame}
  {fs : List Frame} {R : Multiset Frame} {maxScanId : ScanId} {m m' : DaemonState cfg}
  {a : Thread cfg × Input} {s t : ScanId} {root : Path} {row : ScanTaskRow}

/-- Counts the rows of `s` that the export thread holds before it releases the root. -/
@[simp] def exporting (s : ScanId) : Frame → ℕ
  | .result (.insertExported _ row) | .result (.notifyExport row) => if row.scanId = s then 1 else 0
  | _ => 0

/-- Every release stems from a row of its own. -/
def Exported (σ : Shared cfg) (F : Multiset Frame) : Prop :=
  ∀ s, weigh (exporting s) F + σ.exportManager.rows s + σ.history.released.count s ≤
    σ.history.storedRows s

theorem Exported.keep {F F' : Multiset Frame} (h : Exported σ F)
    (hf : ∀ s, weigh (exporting s) F' = weigh (exporting s) F)
    (hr : ∀ s, σ'.exportManager.rows s = σ.exportManager.rows s)
    (hh : σ'.history.released = σ.history.released)
    (hs : ∀ s, σ'.history.storedRows s = σ.history.storedRows s) : Exported σ' F' := by
  intro s
  rw [hf, hr, hh, hs]
  exact h s

theorem ResultStep.exported {pc : ResultPc} (hs : ResultStep σ pc σ' fs)
    (h : Exported σ (.result pc ::ₘ R)) (hn : σ.Named) :
    Exported σ' ((fs : Multiset Frame) + R) := by
  cases hs with
  | @get_row ev row hl =>
    intro s
    have hk := h s
    have hid := (hn.rows ev.scanId row hl).1
    have hrow : σ.exportManager.rows ev.scanId = 1 := by simp [ExportManager.rows, hl]
    simp only [weigh_cons, exporting, zero_add] at hk
    simp only [weigh_add, weigh_coe_cons, exporting, Multiset.coe_nil, weigh_zero, add_zero,
      ScanTaskRow.withRoot_scanId, hid, Shared.withExport_exportManager,
      ExportManager.rows_takeRow, Shared.withExport_history]
    split_ifs with he
    · rw [← he, hrow] at hk
      rw [← he]
      omega
    · omega
  | notify_export =>
    intro s
    have hk := h s
    simp only [weigh_cons, exporting] at hk
    simp [List.count_cons, History.storedRows] at hk ⊢
    omega
  | _ => exact h.keep (fun _ => by simp) (fun _ => rfl) rfl fun _ => rfl

theorem Step.exported (hs : Step tree σ x f σ' fs) (h : Exported σ (f ::ₘ R)) (hn : σ.Named) :
    Exported σ' ((fs : Multiset Frame) + R) := by
  cases hs with
  | result hs => exact hs.exported h hn
  | finish hs =>
    cases hs with
    | @insert_row row =>
      intro s
      have hk := h s
      simp only [weigh_cons, exporting, zero_add] at hk
      simp [ExportManager.rows_insertScanTask, History.storedRows, List.countP_cons] at hk ⊢
      split_ifs <;> omega
    | _ => exact h.keep (fun _ => by simp) (fun _ => rfl) rfl fun _ => rfl
  | http hs | run hs | workForever hs | workerJob hs | main hs =>
    cases hs <;> exact h.keep (fun _ => by simp) (fun _ => rfl) rfl fun _ => rfl
  | cancelScan => exact h.keep (fun _ => by simp) (fun _ => rfl) rfl fun _ => rfl

theorem exported_of_reachable (h : (daemon cfg tree maxScanId).Reachable m) :
    Exported m.shared m.frames := by
  have hinit : Exported (daemon cfg tree maxScanId).init.shared
      (daemon cfg tree maxScanId).init.frames := by
    intro s
    rw [weigh_initial (w := exporting s) fun i f hf => by
      cases i <;> simp [initialStack] at hf <;> subst hf <;> rfl]
    simp [daemon, Shared.new, ExportManager.new, ExportManager.rows, History.new]
  refine h.invariant (P := fun m : DaemonState cfg => Exported m.shared m.frames) hinit ?_
  intro n a n' hn _ hs hk
  obtain ⟨f, rest, fs, R, -, hst, -, hF, hF'⟩ := daemon_step hs
  rw [hF] at hk
  rw [hF']
  exact hst.exported hk (submitted_of_reachable hn).toNamed

/-- The scan was admitted with this root, it is not `DROPPED` or `FAILED`, and
`notify_export_done` has not released it. -/
structure Live (m : DaemonState cfg) (s : ScanId) (root : Path) : Prop where
  submitted : (s, root) ∈ m.shared.history.submitted
  not_dropped : m.shared.scheduler.state s ≠ some .dropped
  not_failed : m.shared.scheduler.state s ≠ some .failed
  not_released : s ∉ m.shared.history.released

/-- A scan whose root is about to be released is live. -/
theorem live_of_notifyExport (h : (daemon cfg tree maxScanId).Reachable m)
    (hf : .result (.notifyExport row) ∈ m.frames) : Live m row.scanId row.submitRoot := by
  have hv := (sound_of_reachable h).valid row.scanId
  have h₁ := exported_of_reachable h row.scanId
  have h₂ : 1 ≤ weigh (exporting row.scanId) m.frames := by
    simpa using le_weigh (w := exporting row.scanId) hf
  have h₃ := (sound_of_reachable h).row_once row.scanId
  have h₄ : (life row.scanId m).closed = weigh (rowWeight row.scanId) m.frames +
    m.shared.history.storedRows row.scanId := rfl
  have h₅ := hv.closing
  have h₆ := hv.drain
  have hbegun : (life row.scanId m).accepted + (life row.scanId m).rejected ≠ 0 := by omega
  refine ⟨(submitted_of_reachable h).frames _ hf, ?_, ?_, ?_⟩
  · intro hd
    exact hbegun (hv.before (.inr (.inr (.inl hd)))).2
  · intro hd
    exact hbegun (hv.before (.inr (.inr (.inr hd)))).2
  · rw [← List.count_eq_zero]
    omega

/-- A scan becomes live by its admission only. -/
theorem Live.of_step (h : (daemon cfg tree maxScanId).Reachable m)
    (hs : (daemon cfg tree maxScanId).step m a = some m') (hl : Live m' s root)
    (hsub : (s, root) ∈ m.shared.history.submitted) : Live m s root := by
  obtain ⟨f, rest, fs, R, -, hst, -⟩ := daemon_step hs
  refine ⟨hsub, ?_, ?_, fun hr => hl.not_released (hst.released_subset hr)⟩
  · intro hd
    exact hl.not_dropped (terminal_stays h hd (.inl rfl) (.single ⟨a, hs⟩))
  · intro hd
    exact hl.not_failed (terminal_stays h hd (.inr (.inr (.inr rfl))) (.single ⟨a, hs⟩))

/-- The live roots are taken, and no two of them overlap. -/
structure Exclusive (m : DaemonState cfg) : Prop where
  taken : ∀ s root, Live m s root → root ∈ m.shared.scheduler.rootMap
  disjoint : ∀ s root t root', Live m s root → Live m t root' → s ≠ t →
    pathsOverlap root root' = false

theorem Scheduler.disjoint_of_check {sc : Scheduler} {path : Path}
    (h : sc.checkNonOverlapPath path = true) (hr : root ∈ sc.rootMap) :
    pathsOverlap path root = false := by
  unfold checkNonOverlapPath at h
  rw [Bool.and_eq_true, decide_eq_true_iff, decide_eq_true_iff] at h
  exact h.2 root hr

theorem Exclusive.step (h : (daemon cfg tree maxScanId).Reachable m) (he : Exclusive m)
    (hs : (daemon cfg tree maxScanId).step m a = some m') : Exclusive m' := by
  obtain ⟨f, rest, fs, R, hf, hst, -, hF, -⟩ := daemon_step hs
  obtain ⟨id, path, -, ho, -, -, hmap, hsub, -⟩ | ⟨row, rfl, hmap, hsub, hrel⟩ |
    ⟨-, hmap, hsub, -⟩ := hst.roots
  · -- an admitted root overlaps no taken one, and the live roots are taken
    have hcases : ∀ s root, Live m' s root → s = id ∧ root = path ∨ Live m s root := by
      intro s root hl
      have hm := hl.submitted
      rw [hsub] at hm
      rcases List.mem_cons.mp hm with hm | hm
      · exact .inl (Prod.mk.inj hm)
      · exact .inr (hl.of_step h hs hm)
    refine ⟨fun s root hl => ?_, fun s root t root' hl hl' hne => ?_⟩
    · rw [hmap]
      rcases hcases s root hl with ⟨-, rfl⟩ | hl
      · exact Finset.mem_insert_self _ _
      · exact Finset.mem_insert_of_mem (he.taken s root hl)
    · rcases hcases s root hl with ⟨rfl, rfl⟩ | hl <;>
        rcases hcases t root' hl' with ⟨rfl, rfl⟩ | hl'
      · exact absurd rfl hne
      · exact Scheduler.disjoint_of_check ho (he.taken t root' hl')
      · rw [pathsOverlap_comm]
        exact Scheduler.disjoint_of_check ho (he.taken s root hl)
      · exact he.disjoint s root t root' hl hl' hne
  · -- the scan that is released is live, so no other live scan has its root
    have hrow := live_of_notifyExport h (hF ▸ Multiset.mem_cons_self _ _)
    refine ⟨fun s root hl => ?_, fun s root t root' hl hl' => ?_⟩
    · have hne : s ≠ row.scanId := by
        rintro rfl
        exact hl.not_released (hrel ▸ List.mem_cons_self)
      have hl := hl.of_step h hs (hsub ▸ hl.submitted)
      rw [hmap]
      refine Finset.mem_erase.mpr ⟨?_, he.taken s root hl⟩
      rintro rfl
      have hd := he.disjoint s _ row.scanId _ hl hrow hne
      rw [pathsOverlap_self] at hd
      exact Bool.noConfusion hd
    · exact he.disjoint s root t root' (hl.of_step h hs (hsub ▸ hl.submitted))
        (hl'.of_step h hs (hsub ▸ hl'.submitted))
  · refine ⟨fun s root hl => ?_, fun s root t root' hl hl' => ?_⟩
    · rw [hmap]
      exact he.taken s root (hl.of_step h hs (hsub ▸ hl.submitted))
    · exact he.disjoint s root t root' (hl.of_step h hs (hsub ▸ hl.submitted))
        (hl'.of_step h hs (hsub ▸ hl'.submitted))

theorem exclusive_of_reachable (h : (daemon cfg tree maxScanId).Reachable m) : Exclusive m := by
  refine h.invariant ⟨?_, ?_⟩ fun n a n' hn _ hs he => he.step hn hs
  · intro s root hl
    exact absurd hl.submitted List.not_mem_nil
  · intro s root t root' hl
    exact absurd hl.submitted List.not_mem_nil

/-- No two live scans have overlapping roots, every live root is taken, and releasing the root of
one scan leaves the roots of the other live scans taken. -/
theorem live_roots_disjoint (h : (daemon cfg tree maxScanId).Reachable m) :
    (∀ s root t root', Live m s root → Live m t root' → s ≠ t →
      pathsOverlap root root' = false) ∧
    (∀ s root, Live m s root → root ∈ m.shared.scheduler.rootMap) ∧
    ∀ a m' row, m.top a.1 = some (.result (.notifyExport row)) →
      (daemon cfg tree maxScanId).step m a = some m' →
      ∀ s root, Live m s root → s ≠ row.scanId → root ∈ m'.shared.scheduler.rootMap := by
  have he := exclusive_of_reachable h
  refine ⟨he.disjoint, he.taken, fun a m' row htop hs s root hl hne => ?_⟩
  obtain ⟨f, rest, fs, R, hf, hst, -, hF, -⟩ := daemon_step hs
  rw [Machine.top_of_stack hf, Option.some.injEq] at htop
  subst htop
  have hrow := live_of_notifyExport h (hF ▸ Multiset.mem_cons_self _ _)
  have hd := he.disjoint s root row.scanId row.submitRoot hl hrow hne
  have hroot : root ≠ row.submitRoot := by
    rintro rfl
    rw [pathsOverlap_self] at hd
    exact Bool.noConfusion hd
  obtain ⟨id, path, -, -, -, -, hmap, -⟩ | ⟨row', hrow', hmap, -⟩ | ⟨-, hmap, -⟩ := hst.roots
  · rw [hmap]
    exact Finset.mem_insert_of_mem (he.taken s root hl)
  · cases hrow'
    rw [hmap]
    exact Finset.mem_erase.mpr ⟨hroot, he.taken s root hl⟩
  · rw [hmap]
    exact he.taken s root hl

/-- Two running scans of sibling directories. -/
theorem live_roots_disjoint_two :
    let m := (daemon (smallConfig 2 2 1) (fun _ => .file 0 0) 0).run
      (serve (.submit ['/', 'a']) 2 ++ serve (.submit ['/', 'b']) 2)
    Live m 1 ['/', 'a'] ∧ Live m 2 ['/', 'b'] ∧ pathsOverlap ['/', 'a'] ['/', 'b'] = false := by
  intro m
  have h₁ : Live m 1 ['/', 'a'] := ⟨by decide, by decide, by decide, by decide⟩
  have h₂ : Live m 2 ['/', 'b'] := ⟨by decide, by decide, by decide, by decide⟩
  exact ⟨h₁, h₂, (live_roots_disjoint (System.reachable_run _ _)).1 1 _ 2 _ h₁ h₂ (by decide)⟩

end ScanDaemon
