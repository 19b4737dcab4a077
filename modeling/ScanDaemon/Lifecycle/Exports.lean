import ScanDaemon.Lifecycle.Exclusion

/-! # What the result thread has exported

The result thread enters a scan into `exported_map` for a sentinel that it has
received, and then releases its root. Between two events it has done so for all
sentinels received so far, unless a missing row has ended it.
-/

namespace ScanDaemon

open Interleave

variable {cfg : Config} {tree : ScanId → FsNode} {σ σ' : Shared cfg} {x : Input} {f : Frame}
  {fs : List Frame} {R : Multiset Frame} {maxScanId : ScanId} {m m' : DaemonState cfg}
  {a : Thread cfg × Input} {s : ScanId} {em em' : ExportManager cfg} {ev : FileEvent}
  {row : ScanTaskRow}

/-- The sentinel that the result thread works on has been received, and the scan that it is about
to release has been exported. -/
def Frame.Received (em : ExportManager cfg) : Frame → Prop
  | .result (.getRow ev) => ev ∈ em.received ∧ ev.endSignal.isSentinel = true
  | .result (.insertExported ev row) => ev ∈ em.received ∧ ev.Ends row.scanId
  | .result (.notifyExport row) => row.scanId ∈ em.exportedMap
  | _ => True

theorem Frame.Received.mono (h : f.Received em) (hr : em.received ⊆ em'.received)
    (he : em.exportedMap ⊆ em'.exportedMap) : f.Received em' := by
  cases f with
  | result pc =>
    cases pc with
    | pop => trivial
    | getRow ev => exact ⟨hr h.1, h.2⟩
    | insertExported ev row => exact ⟨hr h.1, h.2⟩
    | notifyExport row => exact he h
  | _ => trivial

/-- What a step does to the records of the result thread: it receives an event, exports a scan,
releases one, ends the thread, or leaves them alone. -/
theorem Step.exports (hs : Step tree σ x f σ' fs) :
    (∃ ev, f = .result .pop ∧ σ'.exportManager.received = σ.exportManager.received ++ [ev] ∧
      σ'.exportManager.exportedMap = σ.exportManager.exportedMap ∧
      σ'.history.released = σ.history.released ∧
      fs = [.result (if ev.endSignal.isSentinel then .getRow ev else .pop)]) ∨
    (∃ ev row, f = .result (.insertExported ev row) ∧
      σ'.exportManager.received = σ.exportManager.received ∧
      σ'.exportManager.exportedMap = insert ev.scanId σ.exportManager.exportedMap ∧
      σ'.history.released = σ.history.released ∧ fs = [.result (.notifyExport row)]) ∨
    (∃ row, f = .result (.notifyExport row) ∧
      σ'.exportManager.received = σ.exportManager.received ∧
      σ'.exportManager.exportedMap = σ.exportManager.exportedMap ∧
      σ'.history.released = row.scanId :: σ.history.released ∧ fs = [.result .pop]) ∨
    (σ'.exportManager.received = σ.exportManager.received ∧
      σ'.exportManager.exportedMap = σ.exportManager.exportedMap ∧
      σ'.history.released = σ.history.released ∧
      ∀ g ∈ fs, ∀ pc, g = .result pc → ∃ ev row, pc = .insertExported ev (row.withRoot ev.path) ∧
        f = .result (.getRow ev) ∧
        σ.exportManager.pendingScanRows.lookup ev.scanId = some row) := by
  cases hs with
  | result hs =>
    cases hs with
    | @event ev rest hc he => exact .inl ⟨ev, rfl, rfl, rfl, rfl, by simp [he]⟩
    | @sentinel ev rest hc he => exact .inl ⟨ev, rfl, rfl, rfl, rfl, by simp [he]⟩
    | insert_exported => exact .inr (.inl ⟨_, _, rfl, rfl, rfl, rfl, rfl⟩)
    | notify_export => exact .inr (.inr (.inl ⟨_, rfl, rfl, rfl, rfl, rfl⟩))
    | exit | row_missing => exact .inr (.inr (.inr ⟨rfl, rfl, rfl, by simp⟩))
    | get_row hl =>
      refine .inr (.inr (.inr ⟨rfl, rfl, rfl, fun g hg pc hp => ?_⟩))
      rw [List.mem_singleton.mp hg] at hp
      cases hp
      exact ⟨_, _, rfl, rfl, hl⟩
  | http hs | run hs | finish hs | workForever hs | workerJob hs | main hs =>
    cases hs <;> exact .inr (.inr (.inr ⟨rfl, rfl, rfl, by simp⟩))
  | cancelScan => exact .inr (.inr (.inr ⟨rfl, rfl, rfl, by simp⟩))

/-- The sentinel of `s` has been dealt with, or the result thread is at it. -/
def Settled (σ : Shared cfg) (F : Multiset Frame) (s : ScanId) : Prop :=
  s ∈ σ.history.released ∨ 0 < weigh (fetching s) F ∨ 0 < weigh (exporting s) F ∨
    σ.history.rowMissing = true

/-- No step takes the result thread off a sentinel before its scan is released, unless it ends
the thread. -/
theorem Step.settled (hs : Step tree σ x f σ' fs) (h : Settled σ (f ::ₘ R) s) (hn : σ.Named) :
    Settled σ' ((fs : Multiset Frame) + R) s := by
  unfold Settled at h ⊢
  cases hs with
  | result hs =>
    cases hs with
    | row_missing => exact .inr (.inr (.inr rfl))
    | @get_row ev row hl =>
      have hid := (hn.rows ev.scanId row hl).1
      by_cases hs : ev.scanId = s
      · exact .inr (.inr (.inl (by simp [hid, hs])))
      · simpa [hid, hs] using h
    | notify_export =>
      simp at h ⊢
      by_cases hs : s = ScanTaskRow.scanId ‹_›
      · exact .inl (.inl hs)
      · simpa [Ne.symm hs, hs] using h
    | sentinel =>
      by_cases hs : FileEvent.scanId ‹_› = s
      · exact .inr (.inl (by simp [hs]))
      · simpa [hs] using h
    | _ => simpa using h
  | http hs | run hs | finish hs | workForever hs | workerJob hs | main hs =>
    cases hs <;> simpa using h
  | cancelScan => simpa using h

/-- The scans of the sentinels received are exported and released in turn. -/
structure Handled (m : DaemonState cfg) : Prop where
  frames : ∀ f ∈ m.frames, f.Received m.shared.exportManager
  exported : ∀ s ∈ m.shared.exportManager.exportedMap,
    ∃ ev ∈ m.shared.exportManager.received, ev.Ends s
  released : ∀ s ∈ m.shared.history.released, s ∈ m.shared.exportManager.exportedMap
  settled : ∀ ev ∈ m.shared.exportManager.received, ∀ s, ev.Ends s → Settled m.shared m.frames s

theorem Handled.step (h : (daemon cfg tree maxScanId).Reachable m) (hh : Handled m)
    (hs : (daemon cfg tree maxScanId).step m a = some m') : Handled m' := by
  have hnamed := (submitted_of_reachable h).toNamed
  obtain ⟨f, rest, fs, R, hf, hst, -, hF, hF'⟩ := daemon_step hs
  have htop : f ∈ m.frames := hF ▸ Multiset.mem_cons_self _ _
  have hold : ∀ {em : ExportManager cfg}, m.shared.exportManager.received ⊆ em.received →
      m.shared.exportManager.exportedMap ⊆ em.exportedMap → (∀ g ∈ fs, g.Received em) →
      ∀ g ∈ m'.frames, g.Received em := by
    intro em hr he hfs g hg
    rw [hF', Multiset.mem_add] at hg
    rcases hg with hg | hg
    · exact hfs g hg
    · exact (hh.frames g (hF ▸ Multiset.mem_cons_of_mem hg)).mono hr he
  have hkeep : ∀ s, Settled m.shared m.frames s → Settled m'.shared m'.frames s := by
    intro s hk
    rw [hF] at hk
    rw [hF']
    exact hst.settled hk hnamed
  have hsame : ∀ {l : List FileEvent}, l = m.shared.exportManager.received →
      m.shared.exportManager.received ⊆ l := fun he => he ▸ List.Subset.refl _
  rcases hst.exports with ⟨ev, rfl, hr, he, hrel, hfs⟩ | ⟨ev, row, rfl, hr, he, hrel, hfs⟩ |
    ⟨row, rfl, hr, he, hrel, hfs⟩ | ⟨hr, he, hrel, hfs⟩
  · have hsub : m.shared.exportManager.received ⊆ m'.shared.exportManager.received := by
      rw [hr]; exact List.subset_append_left _ _
    refine ⟨hold hsub he.ge ?_, fun s hs => ?_, hrel ▸ he ▸ hh.released, fun e hev s hends => ?_⟩
    · rw [hfs]
      intro g hg
      rw [List.mem_singleton.mp hg]
      split_ifs with hsen
      · exact ⟨by simp [hr], hsen⟩
      · trivial
    · obtain ⟨e, hev, hends⟩ := hh.exported s (he ▸ hs)
      exact ⟨e, hsub hev, hends⟩
    · rw [hr, List.mem_append, List.mem_singleton] at hev
      rcases hev with hev | rfl
      · exact hkeep s (hh.settled e hev s hends)
      · refine .inr (.inl ?_)
        rw [hF', hfs, hends.1]
        simp [hends.2]
  · obtain ⟨hev, hends⟩ := hh.frames _ htop
    refine ⟨hold (hsame hr) (he ▸ Finset.subset_insert _ _) ?_, fun s hs => ?_, fun s hs => ?_,
      fun e hev s hends => hkeep s (hh.settled e (hr ▸ hev) s hends)⟩
    · rw [hfs]
      intro g hg
      rw [List.mem_singleton.mp hg]
      show row.scanId ∈ m'.shared.exportManager.exportedMap
      rw [he, hends.2]
      exact Finset.mem_insert_self _ _
    · rw [he, Finset.mem_insert] at hs
      rcases hs with rfl | hs
      · exact ⟨ev, hr ▸ hev, hends.1, rfl⟩
      · exact hr ▸ hh.exported s hs
    · rw [he]
      exact Finset.mem_insert_of_mem (hh.released s (hrel ▸ hs))
  · refine ⟨hold (hsame hr) he.ge ?_, hr ▸ he ▸ hh.exported, fun s hs => ?_,
      fun e hev s hends => hkeep s (hh.settled e (hr ▸ hev) s hends)⟩
    · rw [hfs]
      intro g hg
      rw [List.mem_singleton.mp hg]
      trivial
    · rw [hrel] at hs
      rw [he]
      rcases List.mem_cons.mp hs with rfl | hs
      · exact hh.frames _ htop
      · exact hh.released s hs
  · refine ⟨hold (hsame hr) he.ge fun g hg => ?_, hr ▸ he ▸ hh.exported, hrel ▸ he ▸ hh.released,
      fun e hev s hends => hkeep s (hh.settled e (hr ▸ hev) s hends)⟩
    cases g with
    | result pc =>
      obtain ⟨ev, row, rfl, rfl, hl⟩ := hfs _ hg pc rfl
      obtain ⟨hev, hsen⟩ := hh.frames _ htop
      refine ⟨hr ▸ hev, hsen, ?_⟩
      rw [ScanTaskRow.withRoot_scanId, (hnamed.rows _ _ hl).1]
    | _ => trivial

theorem handled_of_reachable (h : (daemon cfg tree maxScanId).Reachable m) : Handled m := by
  refine h.invariant ⟨fun f hf => ?_, ?_, ?_, ?_⟩ fun _ _ _ hn _ hs hh => hh.step hn hs
  · obtain ⟨i, hi⟩ := Machine.mem_frames.mp hf
    cases i <;> simp [daemon, initialStack] at hi <;> subst hi <;> trivial
  all_goals simp [daemon, Shared.new, ExportManager.new, History.new]

/-- The result thread is not at work on a sentinel. -/
def BetweenEvents (m : DaemonState cfg) : Prop := ∀ f ∈ m.stack .result, f = .result .pop

theorem weigh_of_betweenEvents (h : (daemon cfg tree maxScanId).Reachable m)
    (hb : BetweenEvents m) {w : Frame → ℕ}
    (hw : ∀ f, (∀ pc, f = .result pc → pc = .pop) → w f = 0) :
    weigh w m.frames = 0 := by
  refine weigh_eq_zero fun f hf => hw f ?_
  rintro pc rfl
  obtain ⟨i, hi⟩ := Machine.mem_frames.mp hf
  have hsh := (sound_of_reachable h).shape i
  cases i with
  | result => exact Frame.result.inj (hb _ hi)
  | http _ => exact (hsh _ hi).elim
  | run | main =>
    generalize m.stack _ = l at hsh hi
    cases hsh <;> simp at hi
  | worker i =>
    change WorkerShape (m.stack (.worker i)) at hsh
    generalize m.stack (.worker i) = l at hsh hi
    cases hsh with
    | exited => cases hi
    | working hj =>
      rcases List.mem_append.mp hi with hi | hi
      · exact (hj _ hi).elim
      · simp at hi

/-- Between two events, the scans of the sentinels received so far have been released. -/
theorem released_of_received (h : (daemon cfg tree maxScanId).Reachable m) (hb : BetweenEvents m)
    (hrow : m.shared.history.rowMissing = false) {ev : FileEvent}
    (hev : ev ∈ m.shared.exportManager.received) (hends : ev.Ends s) :
    s ∈ m.shared.history.released := by
  have hzero : ∀ w : Frame → ℕ, (∀ f, (∀ pc, f = .result pc → pc = .pop) → w f = 0) →
      weigh w m.frames = 0 := fun w hw => weigh_of_betweenEvents h hb hw
  have hfetch : weigh (fetching s) m.frames = 0 := hzero _ fun f hf => by
    cases f with
    | result pc => rw [hf pc rfl]; rfl
    | _ => rfl
  have hexport : weigh (exporting s) m.frames = 0 := hzero _ fun f hf => by
    cases f with
    | result pc => rw [hf pc rfl]; rfl
    | _ => rfl
  rcases (handled_of_reachable h).settled ev hev s hends with hr | hr | hr | hr
  · exact hr
  · omega
  · omega
  · rw [hrow] at hr
    cases hr

/-! ## The sentinels in the queue -/

theorem Step.closed_le (hs : Step tree σ x f σ' fs) :
    weigh (storing s) (f ::ₘ R) + σ.history.storedRows s ≤
      weigh (storing s) ((fs : Multiset Frame) + R) + σ'.history.storedRows s := by
  cases hs with
  | finish hs =>
    cases hs with
    | insert_row => simp [History.storedRows, List.countP_cons]; omega
    | _ => simp [History.storedRows]
  | http hs | run hs | workForever hs | workerJob hs | result hs | main hs =>
    cases hs <;> simp [History.storedRows]
  | cancelScan => simp

/-- A scan whose sentinel has been put into the queue has its row stored, or is about to. -/
theorem closed_of_pushed (h : (daemon cfg tree maxScanId).Reachable m)
    (hev : ev ∈ m.shared.exportManager.pushed) (hends : ev.Ends s) :
    0 < weigh (storing s) m.frames + m.shared.history.storedRows s := by
  refine h.invariant (P := fun m : DaemonState cfg => ∀ ev ∈ m.shared.exportManager.pushed,
    ∀ s, ev.Ends s → 0 < weigh (storing s) m.frames + m.shared.history.storedRows s)
    ?_ (fun n a n' hn _ hs hk => ?_) ev hev s hends
  · simp [daemon, Shared.new, ExportManager.new, ExportManager.pushed, JobQueue.new]
  · obtain ⟨f, rest, fs, R, -, hst, -, hF, hF'⟩ := daemon_step hs
    have hsealed := sealed_of_reachable hn f (hF ▸ Multiset.mem_cons_self _ _)
    rw [hF] at hk
    rw [hF']
    intro ev hev s hends
    have hold : ev ∈ n.shared.exportManager.pushed →
        0 < weigh (storing s) ((fs : Multiset Frame) + R) + n'.shared.history.storedRows s :=
      fun hev => (hk ev hev s hends).trans_le hst.closed_le
    rcases hst.pushed_eq with hp | ⟨data, -, hp⟩ | ⟨id, fake, row, rfl, hp⟩ <;> rw [hp] at hev
    · exact hold hev
    · rcases List.mem_append.mp hev with hev | hev
      · exact hold hev
      · rw [List.mem_singleton.mp hev] at hends
        exact absurd hends data.not_ends
    · rcases List.mem_append.mp hev with hev | hev
      · exact hold hev
      · rw [List.mem_singleton.mp hev] at hends
        have hid : row.scanId = s := hsealed.2.trans (hsealed.1.2.symm.trans hends.2)
        generalize n'.shared = τ at hst hp
        cases hst with
        | finish hst => cases hst <;> simp [hid]

/-- The scan of a sentinel in the queue is over for the scheduler. -/
theorem over_of_pushed (h : (daemon cfg tree maxScanId).Reachable m)
    (hev : ev ∈ m.shared.exportManager.pushed) (hends : ev.Ends s) :
    m.shared.scheduler.state s = some .done ∨ m.shared.scheduler.state s = some .canceled := by
  have hv := (sound_of_reachable h).valid s
  have hpos := closed_of_pushed h hev hends
  have hle := storing_le (s := s) (F := m.frames)
  have hclosed : (life s m).closed =
    weigh (rowWeight s) m.frames + m.shared.history.storedRows s := rfl
  have h₁ := hv.closing
  have h₂ := hv.notified
  have h₃ := hv.drain
  have h₄ := hv.once
  have hfin : (life s m).finished = 1 := by omega
  have hbegun : (life s m).accepted + (life s m).rejected ≠ 0 := by omega
  rcases hst : m.shared.scheduler.state s with _ | st
  · exact absurd (hv.before (.inl hst)).2 hbegun
  · cases st with
    | pending | dropped | failed =>
      exact absurd (hv.before (by simp [life, lifeOf, hst])).2 hbegun
    | running =>
      have := (hv.running hst).2.2
      omega
    | dispatching =>
      have := (hv.dispatching hst).2.2
      omega
    | done => exact .inl rfl
    | canceled => exact .inr rfl

theorem over_of_exported (h : (daemon cfg tree maxScanId).Reachable m)
    (hs : s ∈ m.shared.exportManager.exportedMap) :
    m.shared.scheduler.state s = some .done ∨ m.shared.scheduler.state s = some .canceled := by
  obtain ⟨ev, hev, hends⟩ := (handled_of_reachable h).exported s hs
  exact over_of_pushed h (List.mem_append_left _ hev) hends

/-! ## What a client polls -/

theorem Step.exportedMap_subset (hs : Step tree σ x f σ' fs) :
    σ.exportManager.exportedMap ⊆ σ'.exportManager.exportedMap := by
  rcases hs.exports with ⟨_, -, -, he, -⟩ | ⟨_, _, -, -, he, -⟩ | ⟨_, -, -, he, -⟩ | ⟨-, he, -⟩ <;>
    rw [he]
  exact Finset.subset_insert _ _

theorem exported_stays (h : (daemon cfg tree maxScanId).Reachable m)
    (hl : (daemon cfg tree maxScanId).Leads m m')
    (hs : s ∈ m.shared.exportManager.exportedMap) : s ∈ m'.shared.exportManager.exportedMap := by
  refine hl.stable (P := fun m => s ∈ m.shared.exportManager.exportedMap) h hs ?_
  intro n a n' _ hs hn
  obtain ⟨f, rest, fs, R, -, hst, -⟩ := daemon_step hs
  exact hst.exportedMap_subset hn

/-- The states of a scan that runs or has run. -/
def RequestState.Started (st : RequestState) : Prop :=
  st = .running ∨ st = .done ∨ st = .canceled

/-- A scan that has started does not go back. -/
theorem started_stays (h : (daemon cfg tree maxScanId).Reachable m)
    (hl : (daemon cfg tree maxScanId).Leads m m')
    (hst : ∃ st, m.shared.scheduler.state s = some st ∧ st.Started) :
    ∃ st, m'.shared.scheduler.state s = some st ∧ st.Started := by
  refine hl.stable (P := fun m => ∃ st, m.shared.scheduler.state s = some st ∧ st.Started) h hst ?_
  rintro n a n' hn hs ⟨st, hst, hstart⟩
  have hm := moves_of_step hn hs s
  rw [hst] at hm
  generalize n'.shared.scheduler.state s = o at hm ⊢
  cases hm with
  | stay => exact ⟨st, rfl, hstart⟩
  | move hm =>
    cases hm with
    | finish => exact ⟨_, rfl, .inr (.inl rfl)⟩
    | cancel_running => exact ⟨_, rfl, .inr (.inr rfl)⟩
    | _ => simp [RequestState.Started] at hstart

/-- What a client sees of a scan: the answers to `/state` and `/exporting`. -/
structure View where
  state : RequestState
  exported : Bool

/-- The two answers for a list of ids. -/
def views (m : DaemonState cfg) (ids : List ScanId) : List View :=
  List.zipWith View.mk (m.shared.scheduler.getState ids) (m.shared.exportManager.checkExported ids)

/-- What a client may rely on when it polls a scan twice. -/
structure PollingRules (v v' : View) : Prop where
  /-- before its final state a scan is not exported -/
  exporting : v.exported = true → v.state = .done ∨ v.state = .canceled
  /-- a final state is not polled again -/
  final : v.state.Terminal → v'.state = v.state
  /-- neither is an export -/
  exported : v.exported = true → v'.exported = true
  /-- a scan that has been dropped or has failed is never exported -/
  dead : v.state = .dropped ∨ v.state = .failed → v'.exported = false
  started : v.state.Started → v'.state.Started

theorem shownState_of_started {st : RequestState} (h : st.Started) :
    Scheduler.shownState (some st) = st := by
  rcases h with rfl | rfl | rfl <;> rfl

theorem shownState_of_terminal {st : RequestState} (h : st.Terminal) :
    Scheduler.shownState (some st) = st := by
  rcases h with rfl | rfl | rfl | rfl <;> rfl

/-- A recorded state that is shown as another one is `DISPATCHING`. -/
theorem eq_of_shownState {o : Option RequestState} {st : RequestState} (ho : o ≠ none)
    (h : Scheduler.shownState o = st) (hst : st ≠ .pending) : o = some st := by
  rcases o with _ | q
  · exact absurd rfl ho
  · cases q with
    | dispatching => exact absurd h.symm hst
    | _ => exact congrArg some h

theorem pollingRules_of_leads (h : (daemon cfg tree maxScanId).Reachable m)
    (hl : (daemon cfg tree maxScanId).Leads m m') (hs : m.shared.scheduler.state s ≠ none) :
    PollingRules
      ⟨Scheduler.shownState (m.shared.scheduler.state s),
        decide (s ∈ m.shared.exportManager.exportedMap)⟩
      ⟨Scheduler.shownState (m'.shared.scheduler.state s),
        decide (s ∈ m'.shared.exportManager.exportedMap)⟩ := by
  have hstays : ∀ {st : RequestState}, st.Terminal →
      Scheduler.shownState (m.shared.scheduler.state s) = st →
        m'.shared.scheduler.state s = some st := by
    intro st ht hshown
    have hst := eq_of_shownState hs hshown (by rcases ht with rfl | rfl | rfl | rfl <;> simp)
    exact terminal_stays h hst ht hl
  refine ⟨fun he => ?_, fun ht => ?_, fun he => ?_, fun hd => ?_, fun hst => ?_⟩
  · rcases over_of_exported h (of_decide_eq_true he) with hst | hst <;> simp only [hst]
    · exact .inl rfl
    · exact .inr rfl
  · simp only [hstays ht rfl, shownState_of_terminal ht]
  · exact decide_eq_true (exported_stays h hl (of_decide_eq_true he))
  · refine decide_eq_false fun he => ?_
    have hover := over_of_exported (h.leads hl) he
    rcases hd with hd | hd
    · rw [hstays (.inl rfl) hd] at hover
      simp at hover
    · rw [hstays (.inr (.inr (.inr rfl))) hd] at hover
      simp at hover
  · have hpending : Scheduler.shownState (m.shared.scheduler.state s) ≠ .pending := by
      rintro hp
      rcases hst with hst | hst | hst <;> cases hp.symm.trans hst
    have hrec := eq_of_shownState hs rfl hpending
    obtain ⟨st, hst', hstart⟩ := started_stays h hl ⟨_, hrec, hst⟩
    simp only [hst', shownState_of_started hstart]
    exact hstart

/-- A client that polls admitted scans twice sees no state go back: before the final state no
export, after an export no other state, and no export of a scan that was dropped or has failed. -/
theorem polling_rules (h : (daemon cfg tree maxScanId).Reachable m)
    (hl : (daemon cfg tree maxScanId).Leads m m') (ids : List ScanId)
    (hids : ∀ s ∈ ids, s ∈ m.shared.history.submitted.map Prod.fst) :
    List.Forall₂ PollingRules (views m ids) (views m' ids) := by
  unfold views Scheduler.getState ExportManager.checkExported
  induction ids with
  | nil => exact .nil
  | cons s ids ih =>
    obtain ⟨p, hp, rfl⟩ := List.mem_map.mp (hids s List.mem_cons_self)
    refine .cons (pollingRules_of_leads h hl ?_)
      (ih fun s hs => hids s (List.mem_cons_of_mem _ hs))
    exact (submitted_of_reachable h).known p.1 p.2 hp

/-- A scan that is polled while it runs and when it is exported, and one that is dropped. -/
theorem polling_rules_two :
    let D := daemon (smallConfig 1 1 1) (fun _ => .file 0 0) 0
    let early := serve (.submit ['/', 'a']) 2 ++ serve (.submit ['/', 'b']) 2 ++
      serve (.cancel 2) 1 ++ steps 5 .run
    let late := steps 12 (.worker ⟨0, Nat.one_pos⟩) ++ steps 5 .result
    (views (D.run early) [1, 2]).map View.state = [.running, .dropped] ∧
      (views (D.run (early ++ late)) [1, 2]).map View.exported = [true, false] ∧
      List.Forall₂ PollingRules (views (D.run early) [1, 2])
        (views (D.run (early ++ late)) [1, 2]) :=
  ⟨by decide, by decide, polling_rules (System.reachable_run _ _)
    (System.leads_of_exec (System.exec_run (by decide))) [1, 2] (by decide)⟩

end ScanDaemon
