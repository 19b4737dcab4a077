import ScanDaemon.Lifecycle.Exports
import ScanDaemon.Lifecycle.Order

/-! # Scans of overlapping roots take turns

A scan that still has something to put into the result queue holds its root. So
when two scans have overlapping roots, the sentinel of the one is in the queue,
and has been dealt with, before the first event of the other.
-/

namespace ScanDaemon

open Interleave

variable {cfg : Config} {tree : ScanId → FsNode} {f : Frame} {maxScanId : ScanId}
  {m m' : DaemonState cfg} {a : Thread cfg × Input} {s t : ScanId} {root root' : Path}

/-- The scan for which a frame is about to put something into the result queue. -/
def Frame.pusher : Frame → Option ScanId
  | .workerJob data .scan => some data.scanId
  | .finish id (.pushSentinel _ _) => some id
  | _ => none

/-- A scan that has been handed to the pool and has no row stored yet is live. -/
theorem live_of_unstored (h : (daemon cfg tree maxScanId).Reachable m)
    (hsub : (s, root) ∈ m.shared.history.submitted)
    (hbegun : (life s m).accepted + (life s m).rejected ≠ 0)
    (hrow : m.shared.history.storedRows s = 0) : Live m s root := by
  have hv := (sound_of_reachable h).valid s
  refine ⟨hsub, fun hd => ?_, fun hf => ?_, fun hr => ?_⟩
  · exact hbegun (hv.before (.inr (.inr (.inl hd)))).2
  · exact hbegun (hv.before (.inr (.inr (.inr hf)))).2
  · have hle := exported_of_reachable h s
    have hpos := List.count_pos_iff.mpr hr
    omega

/-- A scan that puts something into the queue has been handed to the pool, and has put in no
sentinel. -/
theorem open_of_pusher (h : (daemon cfg tree maxScanId).Reachable m) (hf : f ∈ m.frames)
    (hs : s ∈ f.pusher) :
    (life s m).accepted + (life s m).rejected ≠ 0 ∧
      weigh (storing s) m.frames + m.shared.history.storedRows s = 0 := by
  have hsound := sound_of_reachable h
  have hv := hsound.valid s
  have hone := hsound.row_once s
  have hle := storing_le (s := s) (F := m.frames)
  have hclosed : (life s m).closed =
    weigh (rowWeight s) m.frames + m.shared.history.storedRows s := rfl
  have h₁ := hv.closing
  have h₂ := hv.drain
  cases f with
  | workerJob data pc =>
    cases pc with
    | scan =>
      obtain rfl : data.scanId = s := Option.some.inj hs
      have hw := le_weigh (w := jobWeight data.scanId) hf
      have hjobs : 0 < (life data.scanId m).jobs := by
        simp only [jobWeight, if_true] at hw
        simp only [life, lifeOf]
        omega
      have h₃ := hv.of_jobs hjobs
      exact ⟨by omega, by omega⟩
    | _ => cases hs
  | finish id pc =>
    cases pc with
    | pushSentinel fake row =>
      obtain rfl : id = s := Option.some.inj hs
      have hrow := (sealed_of_reachable h _ hf).2
      have hstored : weigh (storing id) m.frames + m.shared.history.storedRows id = 0 := by
        -- the row in this frame is the only one of the scan
        obtain ⟨R, hR⟩ := Multiset.exists_cons_of_mem hf
        have hle := storing_le (s := id) (F := R)
        rw [hR] at hone ⊢
        simp only [weigh_cons, rowWeight, storing, hrow, if_true] at hone ⊢
        omega
      have hw := le_weigh (w := rowWeight id) hf
      simp only [rowWeight, hrow, if_true] at hw
      exact ⟨by split_ifs at h₂ <;> omega, hstored⟩
    | _ => cases hs
  | _ => cases hs

/-- A step appends to the result queue what the frame it executes pushes. -/
theorem pushed_of_step (h : (daemon cfg tree maxScanId).Reachable m)
    (hs : (daemon cfg tree maxScanId).step m a = some m') :
    m'.shared.exportManager.pushed = m.shared.exportManager.pushed ∨
      ∃ f ∈ m.frames, ∃ ev, f.pusher = some ev.scanId ∧
        m'.shared.exportManager.pushed = m.shared.exportManager.pushed ++ [ev] := by
  obtain ⟨f, rest, fs, R, -, hst, -, hF, -⟩ := daemon_step hs
  have hmem : f ∈ m.frames := hF ▸ Multiset.mem_cons_self _ _
  rcases hst.pushed_eq with hp | ⟨data, rfl, hp⟩ | ⟨id, fake, row, rfl, hp⟩
  · exact .inl hp
  · exact .inr ⟨_, hmem, data.event, by simp [Frame.pusher], hp⟩
  · have hid := (sealed_of_reachable h _ hmem).1.2
    exact .inr ⟨_, hmem, fake, by simp [Frame.pusher, hid], hp⟩

/-- A scan that has been handed to the pool is not submitted again. -/
theorem submitted_of_begun (h : (daemon cfg tree maxScanId).Reachable m)
    (hs : (daemon cfg tree maxScanId).step m a = some m')
    (hbegun : (life s m).accepted + (life s m).rejected ≠ 0)
    (hsub : (s, root) ∈ m'.shared.history.submitted) :
    (s, root) ∈ m.shared.history.submitted := by
  obtain ⟨f, rest, fs, R, -, hst, -⟩ := daemon_step hs
  rcases hst.ids with ⟨_, -, he, -⟩ | ⟨p, -, -, hn, he, -⟩ | ⟨he, -⟩
  · exact he ▸ hsub
  · rw [he] at hsub
    rcases List.mem_cons.mp hsub with rfl | hsub
    · exact absurd (((sound_of_reachable h).valid s).before (.inl hn)).2 hbegun
    · exact hsub
  · exact he ▸ hsub

/-- The two scans were admitted with overlapping roots. -/
def Overlap (m : DaemonState cfg) (s t : ScanId) : Prop :=
  ∃ root root', (s, root) ∈ m.shared.history.submitted ∧
    (t, root') ∈ m.shared.history.submitted ∧ pathsOverlap root root' = true

/-- What has been put into the result queue comes from scans handed to the pool, nothing follows a
sentinel of its scan, and scans with overlapping roots take turns. -/
structure Serial (m : DaemonState cfg) : Prop where
  begun : ∀ ev ∈ m.shared.exportManager.pushed,
    (life ev.scanId m).accepted + (life ev.scanId m).rejected ≠ 0
  last : ∀ pre ev post, m.shared.exportManager.pushed = pre ++ ev :: post →
    ev.endSignal.isSentinel = true → ∀ e ∈ post, e.scanId ≠ ev.scanId
  turns : ∀ pre e post, m.shared.exportManager.pushed = pre ++ e :: post → ∀ d ∈ pre,
    d.scanId ≠ e.scanId → Overlap m d.scanId e.scanId →
      d.scanId ∈ m.shared.exportManager.exportedMap ∧ ∃ z ∈ pre, z.Ends d.scanId

/-- A scan that has been handed to the pool and is not live has been exported. -/
theorem exported_of_not_live (h : (daemon cfg tree maxScanId).Reachable m)
    (hsub : (s, root) ∈ m.shared.history.submitted)
    (hbegun : (life s m).accepted + (life s m).rejected ≠ 0) (hn : ¬Live m s root) :
    s ∈ m.shared.exportManager.exportedMap := by
  have hv := (sound_of_reachable h).valid s
  refine (handled_of_reachable h).released s ?_
  by_contra hr
  refine hn ⟨hsub, fun hd => ?_, fun hf => ?_, hr⟩
  · exact hbegun (hv.before (.inr (.inr (.inl hd)))).2
  · exact hbegun (hv.before (.inr (.inr (.inr hf)))).2

theorem Serial.step (h : (daemon cfg tree maxScanId).Reachable m) (hser : Serial m)
    (hs : (daemon cfg tree maxScanId).step m a = some m') : Serial m' := by
  obtain ⟨f₀, rest, fs, R, _, hst, _⟩ := daemon_step hs
  have hmore : ∀ s, (life s m).accepted + (life s m).rejected ≠ 0 →
      (life s m').accepted + (life s m').rejected ≠ 0 := by
    intro s hbegun
    have h₁ : (life s m).accepted ≤ (life s m').accepted := hst.count_accepted_le s
    have h₂ : (life s m).rejected ≤ (life s m').rejected := by
      simp only [life, lifeOf]
      rcases hst.rejected_eq with he | ⟨data, -, -, -, he⟩ <;> rw [he]
      exact List.count_le_count_cons
    omega
  have hback : ∀ s t, (life s m).accepted + (life s m).rejected ≠ 0 →
      (life t m).accepted + (life t m).rejected ≠ 0 → Overlap m' s t → Overlap m s t := by
    rintro s t hbs hbt ⟨root, root', hsub, hsub', hover⟩
    exact ⟨root, root', submitted_of_begun h hs hbs hsub, submitted_of_begun h hs hbt hsub', hover⟩
  have hturns : ∀ pre e post, m.shared.exportManager.pushed = pre ++ e :: post → ∀ d ∈ pre,
      d.scanId ≠ e.scanId → Overlap m' d.scanId e.scanId →
        d.scanId ∈ m'.shared.exportManager.exportedMap ∧ ∃ z ∈ pre, z.Ends d.scanId := by
    intro pre e post hp d hd hne hover
    have hbd := hser.begun d (by simp [hp, hd])
    have hbe := hser.begun e (by simp [hp])
    exact (hser.turns pre e post hp d hd hne (hback _ _ hbd hbe hover)).imp_left
      fun hm => hst.exportedMap_subset hm
  rcases pushed_of_step h hs with he | ⟨f, hf, ev, hpush, he⟩
  · refine ⟨fun e hev => hmore _ (hser.begun e (he ▸ hev)), he ▸ hser.last, ?_⟩
    rw [he]
    exact hturns
  · obtain ⟨hbegun, hopen⟩ := open_of_pusher h hf hpush
    refine ⟨fun e hev => hmore _ ?_, fun pre z post hp hz e hpost => ?_,
      fun pre e post hp d hd hne hover => ?_⟩
    · rw [he, List.mem_append, List.mem_singleton] at hev
      rcases hev with hev | rfl
      · exact hser.begun e hev
      · exact hbegun
    · rw [he] at hp
      rcases append_singleton_eq hp with ⟨rfl, -, -⟩ | ⟨post', rfl, hp'⟩
      · cases hpost
      · rcases List.mem_append.mp hpost with hpost | hpost
        · exact hser.last pre z post' hp' hz e hpost
        · rw [List.mem_singleton.mp hpost]
          intro hid
          have hmem : z ∈ m.shared.exportManager.pushed := by simp [hp']
          have hclosed := closed_of_pushed h hmem ⟨hz, hid.symm⟩
          omega
    · rw [he] at hp
      rcases append_singleton_eq hp with ⟨-, rfl, rfl⟩ | ⟨post', -, hp'⟩
      · -- the scan that pushes is live, so the other one is over
        have hbd := hser.begun d hd
        obtain ⟨root, root', hsub, hsub', hpaths⟩ := hback _ _ hbd hbegun hover
        have hlive := live_of_unstored h hsub' hbegun (by omega)
        have hdead : ¬Live m d.scanId root := by
          intro hl
          have hfree := (exclusive_of_reachable h).disjoint _ _ _ _ hl hlive hne
          simp [hfree] at hpaths
        have hexp := exported_of_not_live h hsub hbd hdead
        obtain ⟨z, hz, hends⟩ := (handled_of_reachable h).exported _ hexp
        exact ⟨hst.exportedMap_subset hexp, z, List.mem_append_left _ hz, hends⟩
      · exact hturns pre e post' hp' d hd hne hover

theorem serial_of_reachable (h : (daemon cfg tree maxScanId).Reachable m) : Serial m := by
  refine h.invariant ⟨?_, ?_, ?_⟩ fun _ _ _ hn _ hs hser => hser.step hn hs
  all_goals simp [daemon, Shared.new, ExportManager.new, ExportManager.pushed, JobQueue.new]

/-- Two scans with overlapping roots never mix in the result queue: before anything of the later
one comes the sentinel of the earlier one, which has been exported by then, and nothing of the
earlier one follows. -/
theorem overlapping_scans_in_turn (h : (daemon cfg tree maxScanId).Reachable m)
    {pre post : List FileEvent} {d e : FileEvent}
    (hp : m.shared.exportManager.pushed = pre ++ e :: post) (hd : d ∈ pre)
    (hne : d.scanId ≠ e.scanId) (hsub : (d.scanId, root) ∈ m.shared.history.submitted)
    (hsub' : (e.scanId, root') ∈ m.shared.history.submitted)
    (hover : pathsOverlap root root' = true) :
    d.scanId ∈ m.shared.exportManager.exportedMap ∧ (∃ z ∈ pre, z.Ends d.scanId) ∧
      ∀ c ∈ e :: post, c.scanId ≠ d.scanId := by
  have hser := serial_of_reachable h
  obtain ⟨hexp, z, hz, hends⟩ := hser.turns pre e post hp d hd hne ⟨root, root', hsub, hsub', hover⟩
  refine ⟨hexp, ⟨z, hz, hends⟩, fun c hc => ?_⟩
  obtain ⟨l₁, l₂, rfl⟩ := List.append_of_mem hz
  have hsplit : m.shared.exportManager.pushed = l₁ ++ z :: (l₂ ++ e :: post) := by simp [hp]
  rw [← hends.2]
  exact hser.last l₁ z _ hsplit hends.1 c (List.mem_append_right _ hc)

/-- Two scans of the same directory, one after the other. -/
def twiceRun : List (Thread (smallConfig 2 2 1) × Input) :=
  serve (.submit ['/', 'a']) 2 ++ steps 5 .run ++ steps 12 (.worker ⟨0, Nat.one_pos⟩) ++
    steps 5 .result ++ serve (.submit ['/', 'a']) 2 ++ steps 5 .run ++
    steps 3 (.worker ⟨0, Nat.one_pos⟩)

theorem overlapping_scans_in_turn_twice :
    let m := (daemon (smallConfig 2 2 1) (fun _ => .file 0 0) 0).run twiceRun
    m.shared.exportManager.pushed.map FileEvent.scanId = [1, 1, 2] ∧
      1 ∈ m.shared.exportManager.exportedMap := by
  intro m
  have hp : m.shared.exportManager.pushed = m.shared.exportManager.pushed.take 2 ++
      m.shared.exportManager.pushed.getD 2 (ScanData.event ⟨0, [], .file 0 0⟩) :: [] := by decide
  have hd : m.shared.exportManager.pushed.headD (ScanData.event ⟨0, [], .file 0 0⟩) ∈
      m.shared.exportManager.pushed.take 2 := by decide
  have hsub : ((m.shared.exportManager.pushed.headD (ScanData.event ⟨0, [], .file 0 0⟩)).scanId,
      ['/', 'a']) ∈ m.shared.history.submitted := by decide
  have hsub' : ((m.shared.exportManager.pushed.getD 2
      (ScanData.event ⟨0, [], .file 0 0⟩)).scanId, ['/', 'a']) ∈ m.shared.history.submitted := by
    decide
  exact ⟨by decide, (overlapping_scans_in_turn (System.reachable_run _ _) hp hd (by decide) hsub
    hsub' (by decide)).1⟩

end ScanDaemon
