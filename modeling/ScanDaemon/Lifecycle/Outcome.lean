import ScanDaemon.Lifecycle.Drained

/-! # The three records of an outcome

The scheduler's state, the sentinel and the row of a scan are decided at three
places. They agree when no cancel of the scan is under way at the moment
`task_on_job_finish` reads `ctx->canceled` for the sentinel.
-/

namespace ScanDaemon

open Interleave

variable {cfg : Config} {tree : ScanId → FsNode} {σ σ' : Shared cfg} {x : Input} {f g : Frame}
  {fs rest : List Frame} {s : ScanId} {maxScanId : ScanId} {m m' : DaemonState cfg}
  {a : Thread cfg × Input} {c : Bool}

/-- The scan for which a frame reads `ctx->canceled` next. -/
def Frame.reads : Frame → Option ScanId
  | .finish s (.readCanceled _) => some s
  | _ => none

/-- A call of `Manager::cancel_scan` is made or announced by the frame. -/
def Frame.Cancels (s : ScanId) : Frame → Prop
  | .cancelScan id => id = s
  | .main (.cancelLoop todo _) => s ∈ todo
  | _ => False

instance (s : ScanId) : (f : Frame) → Decidable (f.Cancels s)
  | .cancelScan id => inferInstanceAs (Decidable (id = s))
  | .main (.cancelLoop todo _) => inferInstanceAs (Decidable (s ∈ todo))
  | .main .shutdown | .main (.waitLoop _) | .main .stopPool | .main .joinPool
  | .main .stopExport | .main .joinExport => .isFalse id
  | .http _ | .run _ | .workForever | .workerJob _ _ | .finish _ _ | .result _ => .isFalse id

theorem Frame.cancels_of_pos (h : 0 < cancelWeight s f) : f.Cancels s := by
  cases f with
  | cancelScan id =>
    by_contra hne
    exact absurd h (by simp [show id ≠ s from hne])
  | main pc =>
    cases pc with
    | cancelLoop todo all => exact List.count_pos_iff.mp h
    | _ => simp at h
  | _ => simp at h

/-- The step does not read `ctx->canceled` of a scan that is being canceled. -/
def ReadsSettled (m : DaemonState cfg) (a : Thread cfg × Input) : Prop :=
  ∀ f ∈ m.top a.1, ∀ s ∈ f.reads, (∀ i, ∀ g ∈ m.stack i, ¬g.Cancels s) ∧
    (m.shared.scheduler.state s = some .canceled →
      ∀ data ∈ runData (m.stack .run), data.scanId ≠ s)

instance (m : DaemonState cfg) (a : Thread cfg × Input) : Decidable (ReadsSettled m a) :=
  inferInstanceAs (Decidable (∀ f ∈ m.top a.1, ∀ s ∈ f.reads, _ ∧ (_ → _)))

/-- The end state that goes with a sentinel. -/
def endState (isCanceled : Bool) : RequestState := if isCanceled then .canceled else .done

theorem terminal_endState (c : Bool) : (endState c).Terminal := by
  cases c
  · exact .inr (.inr (.inl rfl))
  · exact .inr (.inl rfl)

/-- The flag and the state agree with the outcome that a frame carries. -/
def Frame.Settled (σ : Shared cfg) : Frame → Prop
  | .finish s (.takeTask _ c) => σ.scheduler.state s = some (endState c) ∧
      (σ.manager.context s).canceled = c
  | .finish _ (.pushSentinel fake row) => fake.scanId = row.scanId ∧
      σ.scheduler.state row.scanId = some (endState fake.endSignal.isCanceled) ∧
      row.endState = endState fake.endSignal.isCanceled
  | .finish _ (.insertRow row) => σ.scheduler.state row.scanId = some row.endState ∧
      ∃ c, row.endState = endState c
  | _ => True

/-- Everything recorded about the outcome of a scan agrees with its state. -/
structure Agreed (m : DaemonState cfg) : Prop where
  frames : ∀ f ∈ m.frames, f.Settled m.shared
  sentinels : ∀ ev ∈ m.shared.exportManager.pushed, ev.endSignal.isSentinel = true →
    m.shared.scheduler.state ev.scanId = some (endState ev.endSignal.isCanceled)
  rows : ∀ row ∈ m.shared.history.stored,
    m.shared.scheduler.state row.scanId = some row.endState ∧ ∃ c, row.endState = endState c

/-- The flag of a scan whose row is about to be taken does not change any more. -/
theorem Life.Step.canceled_eq {v w : Life} (hs : Life.Step s v w) (hv : v.Valid s)
    (ht : 0 < v.taking) (hst : v.state = some (endState v.canceled)) :
    w.canceled = v.canceled := by
  cases hs with
  | cancel_scan hc =>
    have hcan := hv.cancels hc
    cases hvc : v.canceled with
    | true => simp
    | false => simp [hvc, endState, hcan] at hst
  | register hp =>
    have h₁ := hv.of_early (by rw [hp]; rfl)
    have h₂ := hv.closing
    omega
  | _ => rfl

theorem taking_pos {i : Thread cfg} {t : ℕ} (hf : .finish s (.takeTask t c) ∈ m.stack i) :
    0 < (life s m).taking := by
  have hmem : .finish s (.takeTask t c) ∈ m.frames := Machine.mem_frames.mpr ⟨i, hf⟩
  refine Nat.lt_of_lt_of_le ?_ (le_weigh (w := finishing s .takeTask) hmem)
  simp

/-- What a frame carries stays settled while other threads take their steps. -/
theorem Frame.Settled.step (h : (daemon cfg tree maxScanId).Reachable m)
    (hs : (daemon cfg tree maxScanId).step m a = some m') (hg : g ∈ m.frames)
    (hset : g.Settled m.shared) : g.Settled m'.shared := by
  have hstay : ∀ s st, m.shared.scheduler.state s = some st → st.Terminal →
      m'.shared.scheduler.state s = some st := fun s st hst ht =>
    terminal_stays h hst ht (.single ⟨a, hs⟩)
  cases g with
  | finish id pc =>
    cases pc with
    | takeTask t c =>
      obtain ⟨hst, hc⟩ := hset
      refine ⟨hstay id _ hst (terminal_endState c), ?_⟩
      obtain ⟨i, hi⟩ := Machine.mem_frames.mp hg
      have hsound := sound_of_reachable h
      rcases Relation.reflGen_iff _ _ _ |>.mp (hsound.lives hs id) with he | hv
      · have hcan : (life id m').canceled = (life id m).canceled := by rw [he]
        exact hcan.trans hc
      · have hcan := hv.canceled_eq (hsound.valid id) (taking_pos hi) (by
          simpa [life, lifeOf, hc] using hst)
        exact hcan.trans hc
    | pushSentinel fake row =>
      exact ⟨hset.1, hstay _ _ hset.2.1 (terminal_endState _), hset.2.2⟩
    | insertRow row =>
      obtain ⟨hst, c, hc⟩ := hset
      exact ⟨hstay _ _ hst (hc ▸ terminal_endState c), c, hc⟩
    | _ => trivial
  | _ => trivial

/-- The outcome of a scan at the moment its flag is read for the sentinel. -/
theorem state_of_reads {t : ℕ} (h : (daemon cfg tree maxScanId).Reachable m)
    (hok : ReadsSettled m a) (hf : m.stack a.1 = .finish s (.readCanceled t) :: rest) :
    m.shared.scheduler.state s = some (endState (m.shared.manager.context s).canceled) := by
  have hsound := sound_of_reachable h
  have hv := hsound.valid s
  obtain ⟨hcancels, hrun⟩ := hok _ (Machine.top_of_stack hf) s rfl
  have hmem : .finish s (.readCanceled t) ∈ m.frames :=
    Machine.mem_frames.mpr ⟨a.1, hf ▸ List.mem_cons_self⟩
  have hr : 0 < (life s m).reading :=
    Nat.lt_of_lt_of_le (by simp) (le_weigh (w := finishing s .readCanceled) hmem)
  have h₁ := hv.closing
  have h₂ := hv.notified
  have h₃ := hv.once
  have h₄ := hv.drain
  have hdone : (life s m).finished = 1 ∧ (life s m).drained = 1 ∧
      (life s m).accepted + (life s m).rejected = 1 := by
    split_ifs at h₄ <;> omega
  have hcanceled : (life s m).canceled = (m.shared.manager.context s).canceled := rfl
  cases hc : (m.shared.manager.context s).canceled with
  | true => exact hv.canceled (hcanceled.trans hc)
  | false =>
    change (life s m).state = some .done
    have hfin : (life s m).finished ≠ 0 := by omega
    rcases hst : (life s m).state with _ | st
    · have h₅ := (hv.before (.inl hst)).2; omega
    cases st with
    | pending | dropped | failed =>
      have h₅ := (hv.before (by simp [hst])).2
      omega
    | running => exact absurd (hv.running hst).2.2 hfin
    | dispatching => exact absurd (hv.dispatching hst).2.2 hfin
    | done => rfl
    | canceled =>
      have hacc : (life s m).accepted = 1 := by
        have hsh := hsound.shape a.1
        rw [hf] at hsh
        rcases hsh.finish with ⟨j, hi⟩ | ⟨hi, data, hd, hid⟩
        · rw [hi] at hf
          have hown := (owned_of_reachable h).stack j _ (hf ▸ List.mem_cons_self) s rfl
          have h₅ : 0 < (life s m).accepted := List.count_pos_iff.mpr hown
          omega
        · rw [← hf, hi] at hd
          exact absurd hid (hrun hst data hd)
      have hreg : (life s m).registered = true := by
        have h₅ := hv.registry
        by_contra hn
        rw [Bool.not_eq_true] at hn
        simp only [hn, Bool.toNat_false] at h₅
        omega
      rcases hv.reaches hst hacc hreg with hcan | hpos | hph
      · exact absurd (hcan.symm.trans (hcanceled.trans hc)) (by simp)
      · obtain ⟨g, hg, hw⟩ := exists_of_weigh_pos hpos
        obtain ⟨i, hi⟩ := Machine.mem_frames.mp hg
        exact absurd (Frame.cancels_of_pos hw) (hcancels i g hi)
      · obtain ⟨data, hd, hid⟩ := mem_runData_of_phase hph
        exact absurd hid (hrun hst data hd)

/-- What a step leaves on the stack is settled when the frame it executes is. -/
theorem settled_of_step (hst : Step tree σ x f σ' fs) (hf : f.Settled σ)
    (hreads : ∀ s t, f = .finish s (.readCanceled t) →
      σ.scheduler.state s = some (endState (σ.manager.context s).canceled))
    (hs : ∀ s st, σ.scheduler.state s = some st → st.Terminal → σ'.scheduler.state s = some st) :
    ∀ g ∈ fs, g.Settled σ' := by
  cases hst with
  | finish hst =>
    cases hst with
    | read_canceled => simpa [Frame.Settled] using hreads _ _ rfl
    | take_task =>
      obtain ⟨hst, hc⟩ := hf
      simp only [List.mem_singleton, forall_eq, Frame.Settled, Manager.row_scanId]
      exact ⟨trivial, hst, by rw [Manager.row_endState, hc]; rfl⟩
    | push_dropped =>
      obtain ⟨-, hst, he⟩ := hf
      simp only [List.mem_singleton, forall_eq, Frame.Settled, he]
      exact ⟨hst, _, rfl⟩
    | push_sentinel =>
      obtain ⟨-, hst, he⟩ := hf
      simp only [List.mem_singleton, forall_eq, Frame.Settled, he]
      exact ⟨hst, _, rfl⟩
    | _ => simp [Frame.Settled]
  | http hst | run hst | workForever hst | workerJob hst | result hst | main hst =>
    cases hst <;> simp [Frame.Settled]
  | cancelScan => simp

theorem Agreed.step (h : (daemon cfg tree maxScanId).Reachable m) (ha : Agreed m)
    (hok : ReadsSettled m a) (hs : (daemon cfg tree maxScanId).step m a = some m') :
    Agreed m' := by
  obtain ⟨f, rest, fs, R, hf, hst, hm', hF, hF'⟩ := daemon_step hs
  have hstay : ∀ s st, m.shared.scheduler.state s = some st → st.Terminal →
      m'.shared.scheduler.state s = some st := fun s st hst ht =>
    terminal_stays h hst ht (.single ⟨a, hs⟩)
  have hfF : f ∈ m.frames := by rw [hF]; exact Multiset.mem_cons_self _ _
  have hfset := ha.frames f hfF
  refine ⟨fun g hg => ?_, fun ev hev he => ?_, fun row hrow => ?_⟩
  · rw [hF', Multiset.mem_add] at hg
    rcases hg with hg | hg
    · refine settled_of_step hst hfset (fun s t he => ?_) hstay g hg
      subst he
      exact state_of_reads h hok hf
    · have hgF : g ∈ m.frames := by rw [hF]; exact Multiset.mem_cons_of_mem hg
      exact (ha.frames g hgF).step h hs hgF
  · have hold : ev ∈ m.shared.exportManager.pushed →
        m'.shared.scheduler.state ev.scanId = some (endState ev.endSignal.isCanceled) :=
      fun hev => hstay _ _ (ha.sentinels ev hev he) (terminal_endState _)
    rcases hst.pushed_eq with hp | ⟨data, rfl, hp⟩ | ⟨id, fake, row, rfl, hp⟩ <;> rw [hp] at hev
    · exact hold hev
    · rcases List.mem_append.mp hev with hev | hev
      · exact hold hev
      · rw [List.mem_singleton.mp hev] at he
        simp at he
    · rcases List.mem_append.mp hev with hev | hev
      · exact hold hev
      · rw [List.mem_singleton.mp hev]
        obtain ⟨hid, hst, -⟩ := hfset
        exact hstay _ _ (hid ▸ hst) (terminal_endState _)
  · have hold : ∀ row : ScanTaskRow, m.shared.scheduler.state row.scanId = some row.endState ∧
        (∃ c, row.endState = endState c) →
        m'.shared.scheduler.state row.scanId = some row.endState ∧ ∃ c, row.endState = endState c :=
      fun row ⟨hst, c, hc⟩ => ⟨hstay _ _ hst (hc ▸ terminal_endState c), c, hc⟩
    rcases hst.stored_eq with hp | ⟨id, row', rfl, hp⟩ <;> rw [hp] at hrow
    · exact hold row (ha.rows row hrow)
    · rcases List.mem_cons.mp hrow with rfl | hrow
      · exact hold row hfset
      · exact hold row (ha.rows row hrow)

theorem agreed_of_reach (h : (daemon cfg tree maxScanId).Reach ReadsSettled m) : Agreed m := by
  refine h.invariant ⟨fun f hf => ?_, ?_, ?_⟩ fun n a n' hn hok hs ha =>
    ha.step hn.reachable hok hs
  · obtain ⟨i, hi⟩ := Machine.mem_frames.mp hf
    cases i <;> simp [daemon, initialStack] at hi <;> subst hi <;> trivial
  · simp [daemon, Shared.new, ExportManager.new, ExportManager.pushed, JobQueue.new]
  · simp [daemon, Shared.new, History.new]

/-- The state, the sentinel and the row of a scan that is over agree, provided that its flag
is not read while it is being canceled. -/
theorem outcome_agrees (h : (daemon cfg tree maxScanId).Reach ReadsSettled m) :
    (∀ ev ∈ m.shared.exportManager.pushed, ev.endSignal.isSentinel = true →
      m.shared.scheduler.state ev.scanId =
        some (if ev.endSignal.isCanceled then .canceled else .done)) ∧
    ∀ row ∈ m.shared.history.stored,
      m.shared.scheduler.state row.scanId = some row.endState ∧
        (row.endState = .canceled ∨ row.endState = .done) := by
  have ha := agreed_of_reach h
  refine ⟨ha.sentinels, fun row hrow => ?_⟩
  obtain ⟨hst, c, hc⟩ := ha.rows row hrow
  refine ⟨hst, ?_⟩
  cases c
  · exact .inr hc
  · exact .inl hc

/-- A scan canceled while it runs: all three records say so. -/
theorem outcome_agrees_canceled :
    let m := (daemon (smallConfig 1 1 1) (fun _ => .file 0 0) 0).run
      (serve (.submit ['/', 'a']) 2 ++ steps 5 .run ++ serve (.cancel 1) 2 ++
        steps 8 (.worker ⟨0, Nat.one_pos⟩))
    m.shared.exportManager.pushed.map FileEvent.endSignal = [⟨true, true⟩] ∧
      m.shared.history.stored.map ScanTaskRow.endState = [.canceled] ∧
      ∀ ev ∈ m.shared.exportManager.pushed, ev.endSignal.isSentinel = true →
        m.shared.scheduler.state ev.scanId =
          some (if ev.endSignal.isCanceled then .canceled else .done) :=
  ⟨by decide, by decide, (outcome_agrees (System.reach_run (by decide +kernel))).1⟩

/-- The state is `CANCELED`, but the flag is stored after it has been read for the sentinel and
for the row. -/
theorem outcome_differs :
    ∃ m, (daemon (smallConfig 1 1 1) (fun _ => .file 0 0) 0).Reachable m ∧
      m.shared.scheduler.state 1 = some .canceled ∧
      (∃ ev ∈ m.shared.exportManager.pushed, ev.scanId = 1 ∧ ev.endSignal = ⟨true, false⟩) ∧
      ∃ row ∈ m.shared.history.stored, row.scanId = 1 ∧ row.endState = .done :=
  ⟨_, System.reachable_run _ (serve (.submit ['/', 'a']) 2 ++ steps 5 .run ++
    steps 3 (.worker ⟨0, Nat.one_pos⟩) ++ serve (.cancel 1) 1 ++
    steps 8 (.worker ⟨0, Nat.one_pos⟩) ++ steps 1 (.http ⟨0, Nat.one_pos⟩)),
    by decide, by decide, by decide⟩

end ScanDaemon
