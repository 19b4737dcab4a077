import ScanDaemon.Export.Recording

/-! # Batches, transactions and metrics

The result thread keeps a ledger of its calls and of its two metrics. The calls
run through an automaton whose state is the open batch: the batch counter, the
transaction and `export_running` stay in step.
-/

namespace ScanDaemon

open Relational TracedSession

/-- What the result thread asks of its connection. -/
inductive Call
  | begin
  | commit
  | upsert (event : FileEvent)
  | finalize (event : FileEvent)
  deriving DecidableEq, Repr

/-- The open batch after a call: the number of its events, or `none` outside any transaction. There
is no next state when the call is out of place. -/
def Call.next : Option ℕ → Call → Option (Option ℕ)
  | none, begin => some (some 0)
  | some _, commit => some none
  | some n, upsert _ => some (some (n + 1))
  | none, finalize _ => some none
  | _, _ => none

/-- The open batch after some calls. -/
def openBatch (calls : List Call) : Option (Option ℕ) := calls.foldlM Call.next none

/-- The events that are upserted, in order. -/
def upserts : List Call → List FileEvent :=
  List.filterMap fun c => match c with
    | .upsert event => some event
    | _ => none

/-- The `BEGIN`s and `COMMIT`s, in order. -/
def commands (calls : List Call) : List Call := calls.filter fun c => c = .begin || c = .commit

section Calls

variable {calls pre post : List Call} {c : Call} {b : Option ℕ} {ev : FileEvent}

theorem openBatch_append (h : openBatch pre = some b) :
    openBatch (pre ++ post) = post.foldlM Call.next b := by
  rw [openBatch, List.foldlM_append, ← openBatch, h]
  rfl

theorem openBatch_prefix (h : openBatch (pre ++ post) = some b) :
    ∃ b', openBatch pre = some b' ∧ post.foldlM Call.next b' = some b := by
  rw [openBatch, List.foldlM_append, ← openBatch] at h
  cases hpre : openBatch pre with
  | none =>
    rw [hpre] at h
    cases h
  | some b' =>
    rw [hpre] at h
    exact ⟨b', rfl, h⟩

/-- No batch is open when a scan is finalised. -/
theorem openBatch_before_finalize (h : openBatch (pre ++ .finalize ev :: post) = some b) :
    openBatch pre = some none := by
  obtain ⟨b', hpre, hpost⟩ := openBatch_prefix h
  cases b' with
  | none => exact hpre
  | some n => cases hpost

theorem commit_mem_of_closes {n : ℕ} (h : post.foldlM Call.next (some n) = some none) :
    Call.commit ∈ post := by
  induction post generalizing n with
  | nil => cases h
  | cons c post ih =>
    rw [List.foldlM_cons] at h
    cases c with
    | begin => cases h
    | commit => exact List.mem_cons_self
    | upsert event => exact List.mem_cons_of_mem _ (ih h)
    | finalize event => cases h

/-- Where no batch is open, what was upserted has been committed. -/
theorem commit_after_upsert (h : openBatch (pre ++ .upsert ev :: post) = some none) :
    Call.commit ∈ post := by
  obtain ⟨b', -, hpost⟩ := openBatch_prefix h
  cases b' with
  | none => cases hpost
  | some n => exact commit_mem_of_closes hpost

/-- `BEGIN` and `COMMIT` alternate. -/
theorem commands_alternate (h : openBatch calls = some b) : ∃ n, commands calls =
    (List.replicate n [Call.begin, .commit]).flatten ++ if b.isSome then [.begin] else [] := by
  induction calls using List.reverseRecOn generalizing b with
  | nil =>
    cases h
    exact ⟨0, rfl⟩
  | append_singleton calls c ih =>
    obtain ⟨b', hpre, hc⟩ := openBatch_prefix h
    obtain ⟨n, hn⟩ := ih hpre
    rw [commands, List.filter_append, ← commands, hn]
    cases b' with
    | none =>
      cases c with
      | begin =>
        cases hc
        exact ⟨n, by simp⟩
      | finalize event =>
        cases hc
        exact ⟨n, by simp⟩
      | commit => cases hc
      | upsert event => cases hc
    | some k =>
      cases c with
      | commit =>
        cases hc
        refine ⟨n + 1, ?_⟩
        rw [List.replicate_succ']
        simp
      | upsert event =>
        cases hc
        exact ⟨n, by simp⟩
      | begin => cases hc
      | finalize event => cases hc

@[simp] theorem upserts_append : upserts (pre ++ post) = upserts pre ++ upserts post :=
  List.filterMap_append

end Calls

/-- The calls in order, and the metrics. -/
structure Ledger where
  calls : List Call
  exportRunning : ℤ
  exportFinished : ℤ

namespace Ledger

def start : Ledger := ⟨[], 0, 0⟩

@[simps] def add (c : Call) (r : Ledger) : Ledger := { r with calls := r.calls ++ [c] }

@[simps] def run (r : Ledger) : Ledger := { r with exportRunning := r.exportRunning + 1 }

@[simps] def finish (n : ℕ) (r : Ledger) : Ledger :=
  { r with exportRunning := r.exportRunning - n, exportFinished := r.exportFinished + n }

/-- The calls are noted in order, and the metrics are changed where the code changes them. -/
def recorder : Recorder Ledger where
  begin := add .begin
  commit := add .commit
  upsert event r := r.run.add (.upsert event)
  batch := finish
  finalize event := add (.finalize event)
  insertRow _ := id
  mark _ := id

end Ledger

namespace Ledger

variable {batchSize : ℕ} {event : FileEvent} {events : List FileEvent} {t : ResultThread}
  {row : ScanTaskRow}

/-! ## One pass of the loop -/

/-- At the head of the loop the counter, the transaction and the metric say the same. -/
structure InStep (t : ResultThread) (s : Client Database Path × Ledger) (e : Database) : Prop where
  client : ∃ d, s.1 = .flawless (ResultThread.batch t.batchCount d e)
  calls : openBatch s.2.calls = some (if t.batchCount = 0 then none else some t.batchCount)
  running : s.2.exportRunning = t.batchCount

variable {s : Client Database Path × Ledger} {d e : Database}

theorem run_commitBatch (h : InStep t s e) : ∃ s', (recorder.commitBatch t).run s =
    .ok { t with batchCount := 0 } s' ∧ InStep { t with batchCount := 0 } s' e ∧
      upserts s'.2.calls = upserts s.2.calls := by
  obtain ⟨c, r⟩ := s
  obtain ⟨⟨d, hc⟩, hcalls, hrun⟩ := h
  have hc : c = .flawless (ResultThread.batch t.batchCount d e) := hc
  have hcalls : openBatch r.calls = some _ := hcalls
  have hrun : r.exportRunning = t.batchCount := hrun
  subst hc
  cases hn : t.batchCount with
  | zero =>
    rw [hn] at hcalls hrun
    refine ⟨(.flawless (.closed e), r), ?_, ⟨⟨e, rfl⟩, hcalls, hrun⟩, rfl⟩
    simp only [Recorder.commitBatch, hn]
    rfl
  | succ n =>
    rw [hn] at hcalls hrun
    refine ⟨(.flawless (.closed e), (r.add .commit).finish (n + 1)), ?_, ⟨⟨e, rfl⟩, ?_, ?_⟩, ?_⟩
    · simp only [Recorder.commitBatch, hn]
      rfl
    · exact (openBatch_append hcalls).trans rfl
    · have hrun : r.exportRunning = (n + 1 : ℕ) := hrun
      simp [hrun]
    · simp [upserts]

/-- The transactions of a finalisation, on the ledger. -/
theorem run_finalizeScan (d : Database) (row : ScanTaskRow) (event : FileEvent) {r : Ledger}
    (hr : openBatch r.calls = some none) :
    ∃ r', (recorder.finalizeScan row event).run (.flawless (.closed d), r) =
      .ok true (.flawless (.closed (d.finalize row event)), r') ∧
        openBatch r'.calls = some none ∧ r'.exportRunning = r.exportRunning ∧
          upserts r'.calls = upserts r.calls := by
  have hnotes : recorder.finalized row event r = { r with calls := r.calls ++
      [.begin] ++ [.commit] ++ [.begin] ++ [.commit] ++ [.begin] ++ [.commit] ++ [.begin] ++
        [.commit] } := rfl
  refine ⟨_, Recorder.run_finalizeScan_flawless, ?_⟩
  rw [hnotes]
  refine ⟨?_, rfl, ?_⟩
  · simp only [List.append_assoc]
    exact (openBatch_append hr).trans rfl
  · simp [upserts]

theorem run_beginBatch (h : InStep t s e) : ∃ d r, (recorder.beginBatch t).run s =
    .ok () (.flawless (.opened d e), r) ∧ openBatch r.calls = some (some t.batchCount) ∧
      r.exportRunning = t.batchCount ∧ upserts r.calls = upserts s.2.calls := by
  obtain ⟨c, r⟩ := s
  obtain ⟨⟨d, hc⟩, hcalls, hrun⟩ := h
  have hc : c = .flawless (ResultThread.batch t.batchCount d e) := hc
  have hcalls : openBatch r.calls = some _ := hcalls
  subst hc
  unfold Recorder.beginBatch ResultThread.batch
  split_ifs with hn
  · rw [if_pos hn] at hcalls
    refine ⟨e, r.add .begin, rfl, ?_, hrun, ?_⟩
    · rw [hn]
      exact (openBatch_append hcalls).trans rfl
    · simp [upserts]
  · rw [if_neg hn] at hcalls
    exact ⟨d, r, rfl, hcalls, hrun, rfl⟩

/-- The counter and the metric take up an event together. -/
theorem run_event (batchSize : ℕ) (h : InStep t s e) (hs : event.endSignal.isSentinel = false) :
    ∃ t' s', (recorder.writeResult batchSize event t).run s = .ok t' s' ∧
      InStep t' s' (e.upsert event) ∧
      t'.pendingScanRows = t.pendingScanRows ∧
        upserts s'.2.calls = upserts s.2.calls ++ [event] := by
  obtain ⟨d, r, hbegin, hcalls, hrun, hups⟩ := run_beginBatch h
  have hupsert : (IndexWriter.upsert event).run (.flawless (.opened d e)) =
      .ok () (.flawless (.opened d (e.upsert event))) := IndexWriter.run_upsert_flawless
  have hlift := run_lift_ok (r := recorder.upsert event r) hupsert
  have hin : InStep { t with batchCount := t.batchCount + 1 }
      (.flawless (.opened d (e.upsert event)), r.run.add (.upsert event)) (e.upsert event) := by
    constructor
    · exact ⟨d, rfl⟩
    · exact (openBatch_append hcalls).trans rfl
    · simp [hrun]
  have hadd : upserts (r.run.add (.upsert event)).calls = upserts s.2.calls ++ [event] := by
    rw [Ledger.add_calls, Ledger.run_calls, upserts_append, hups]
    rfl
  simp only [Recorder.writeResult, hs, Bool.false_eq_true, if_false, EStateM.run_bind, hbegin,
    run_note, hlift]
  split_ifs
  · obtain ⟨s', hc, hin', hups'⟩ := run_commitBatch hin
    exact ⟨_, s', hc, hin', rfl, hups'.trans hadd⟩
  · exact ⟨_, _, rfl, hin, rfl, hadd⟩

/-- A sentinel ends the batch before its scan is finalised. -/
theorem run_sentinel (batchSize : ℕ) (h : InStep t s e) (hs : event.endSignal.isSentinel = true)
    (hrow : t.pendingScanRows.lookup event.scanId = some row) :
    ∃ t' s', (recorder.writeResult batchSize event t).run s = .ok t' s' ∧
      InStep t' s' (e.finalize (row.withRoot event.path) event) ∧
        t'.pendingScanRows = t.pendingScanRows.erase event.scanId ∧
          upserts s'.2.calls = upserts s.2.calls := by
  obtain ⟨⟨c, r⟩, hcommit, hin, hups⟩ := run_commitBatch h
  obtain ⟨⟨d, hc⟩, hcalls, hrun⟩ := hin
  have hc : c = .flawless (.closed e) := hc
  have hcalls : openBatch r.calls = some none := hcalls
  subst hc
  obtain ⟨r', hfin, hcalls', hrun', hups'⟩ := run_finalizeScan e (row.withRoot event.path) event
    (r := recorder.finalize event r) ((openBatch_append hcalls).trans rfl)
  refine ⟨⟨0, t.pendingScanRows.erase event.scanId, insert event.scanId t.exportedMap⟩,
    (.flawless (.closed (e.finalize (row.withRoot event.path) event)), r'), ?_,
    ⟨⟨e, rfl⟩, hcalls', hrun'.trans hrun⟩, rfl, ?_⟩
  · simp only [Recorder.writeResult, hs, if_true, EStateM.run_bind, hcommit,
      Recorder.finalizeEvent, run_note, hrow, hfin]
    rfl
  · rw [hups', ← hups]
    simp [upserts, recorder]

/-- Without the row the thread ends, after its batch. -/
theorem run_missing (batchSize : ℕ) (h : InStep t s e) (hs : event.endSignal.isSentinel = true)
    (hrow : t.pendingScanRows.lookup event.scanId = none) :
    ∃ s', (recorder.writeResult batchSize event t).run s = .error .threw s' ∧
      InStep { t with batchCount := 0 } s' e ∧ upserts s'.2.calls = upserts s.2.calls := by
  obtain ⟨⟨c, r⟩, hcommit, hin, hups⟩ := run_commitBatch h
  have hcalls : openBatch r.calls = some none := hin.calls
  refine ⟨(c, r.add (.finalize event)), ?_, ⟨hin.client, ?_, hin.running⟩, ?_⟩
  · simp only [Recorder.writeResult, hs, if_true, EStateM.run_bind, hcommit,
      Recorder.finalizeEvent, run_note, hrow]
    rfl
  · exact (openBatch_append hcalls).trans rfl
  · rw [← hups]
    simp [upserts]

/-! ## The loop -/

/-- The events that are popped: the thread ends at a sentinel whose row is missing. -/
def popped : ScanMap ScanTaskRow → List FileEvent → List FileEvent
  | _, [] => []
  | rows, event :: events =>
    if event.endSignal.isSentinel then
      match rows.lookup event.scanId with
      | none => [event]
      | some _ => event :: popped (rows.erase event.scanId) events
    else event :: popped rows events

/-- The tables when the popped events have been stored one by one. -/
def tables : ScanMap ScanTaskRow → List FileEvent → Database → Database
  | _, [], db => db
  | rows, event :: events, db =>
    if event.endSignal.isSentinel then
      match rows.lookup event.scanId with
      | none => db
      | some row =>
        tables (rows.erase event.scanId) events (db.finalize (row.withRoot event.path) event)
    else tables rows events (db.upsert event)

theorem run_writeResultToDb (batchSize : ℕ) (events : List FileEvent) (h : InStep t s e) :
    ∃ t', t'.batchCount = 0 ∧
      InStep t' (ended ((recorder.writeResultToDb batchSize events t).run s))
        (tables t.pendingScanRows events e) ∧
      upserts (ended ((recorder.writeResultToDb batchSize events t).run s)).2.calls =
        upserts s.2.calls ++
        (popped t.pendingScanRows events).filter fun event => !event.endSignal.isSentinel := by
  induction events generalizing t s e with
  | nil =>
    obtain ⟨s', hrun, hin, hups⟩ := run_commitBatch h
    have hend : ended ((recorder.writeResultToDb batchSize [] t).run s) = s' := congrArg ended hrun
    rw [hend]
    exact ⟨{ t with batchCount := 0 }, rfl, hin, by rw [hups]; simp [popped]⟩
  | cons event events ih =>
    rw [Recorder.writeResultToDb_cons, EStateM.run_bind]
    cases hs : event.endSignal.isSentinel with
    | false =>
      obtain ⟨t', s', hrun, hin, hrows, hups⟩ := run_event batchSize h hs
      obtain ⟨t'', hz, hin', hups'⟩ := ih hin
      rw [hrun]
      refine ⟨t'', hz, ?_, ?_⟩
      · rw [tables, if_neg (by simp [hs]), ← hrows]
        exact hin'
      · rw [popped, if_neg (by simp [hs]), List.filter_cons_of_pos (by simp [hs]), ← hrows]
        exact hups'.trans (by rw [hups, List.append_assoc]; rfl)
    | true =>
      cases hrow : t.pendingScanRows.lookup event.scanId with
      | none =>
        obtain ⟨s', hrun, hin, hups⟩ := run_missing batchSize h hs hrow
        rw [hrun]
        refine ⟨{ t with batchCount := 0 }, rfl, ?_, ?_⟩
        · simp only [tables, hs, if_true, hrow]
          exact hin
        · simp only [popped, hs, if_true, hrow]
          exact hups.trans (by simp [hs])
      | some row =>
        obtain ⟨t', s', hrun, hin, hrows, hups⟩ := run_sentinel batchSize h hs hrow
        obtain ⟨t'', hz, hin', hups'⟩ := ih hin
        rw [hrun]
        refine ⟨t'', hz, ?_, ?_⟩
        · simp only [tables, hs, if_true, hrow]
          rw [← hrows]
          exact hin'
        · simp only [popped, hs, if_true, hrow]
          rw [List.filter_cons_of_neg (by simp [hs]), ← hrows]
          exact hups'.trans (by rw [hups])

/-- Each time the loop comes to its head, everything is in step. -/
theorem inStep_of_writeResults {t' : ResultThread} {s' : Client Database Path × Ledger}
    (h : InStep t s e) (hrun : (recorder.writeResults batchSize events t).run s = .ok t' s') :
    ∃ e', InStep t' s' e' := by
  induction events generalizing t s e with
  | nil =>
    cases hrun
    exact ⟨e, h⟩
  | cons event events ih =>
    rw [Recorder.writeResults, EStateM.run_bind] at hrun
    cases hs : event.endSignal.isSentinel with
    | false =>
      obtain ⟨t₁, s₁, hrun₁, hin, -⟩ := run_event batchSize h hs
      rw [hrun₁] at hrun
      exact ih hin hrun
    | true =>
      cases hrow : t.pendingScanRows.lookup event.scanId with
      | none =>
        obtain ⟨s₁, hrun₁, -⟩ := run_missing batchSize h hs hrow
        rw [hrun₁] at hrun
        cases hrun
      | some row =>
        obtain ⟨t₁, s₁, hrun₁, hin, -⟩ := run_sentinel batchSize h hs hrow
        rw [hrun₁] at hrun
        exact ih hin hrun

theorem inStep_start {rows : ScanMap ScanTaskRow} {exported : Finset ScanId} :
    InStep ⟨0, rows, exported⟩ (.flawless (.closed e), .start) e :=
  ⟨⟨e, rfl⟩, rfl, rfl⟩

/-- Outside a batch the connection is closed. -/
theorem InStep.closed (h : InStep t s e) (ht : t.batchCount = 0) :
    s.1 = .flawless (.closed e) ∧ openBatch s.2.calls = some none ∧ s.2.exportRunning = 0 := by
  obtain ⟨⟨d, hc⟩, hcalls, hrun⟩ := h
  rw [ht] at hc hcalls hrun
  exact ⟨hc, hcalls, hrun⟩

/-- Whatever is popped and whatever the size of the batches, the calls are in order and the tables
are those of a commit after every event. -/
theorem batches_in_step (batchSize : ℕ) (rows : ScanMap ScanTaskRow) (exported : Finset ScanId)
    (events : List FileEvent) (db : Database) :
    let t : ResultThread := ⟨0, rows, exported⟩
    let s : Client Database Path × Ledger := (.flawless (.closed db), .start)
    let final := ended ((recorder.writeResultToDb batchSize events t).run s)
    -- the ledger records what the result thread does
    forget ((recorder.writeResultToDb batchSize events t).run s) =
      (ResultThread.writeResultToDb batchSize events t).run (.flawless (.closed db)) ∧
    (∃ n, commands final.2.calls = (List.replicate n [.begin, .commit]).flatten) ∧
    (∀ pre ev post, final.2.calls = pre ++ .finalize ev :: post → openBatch pre = some none ∧
      ∀ pre₁ ev' pre₂, pre = pre₁ ++ .upsert ev' :: pre₂ → .commit ∈ pre₂) ∧
    upserts final.2.calls = (popped rows events).filter (fun ev => !ev.endSignal.isSentinel) ∧
    (openBatch final.2.calls = some none ∧ final.1 = .flawless (.closed (tables rows events db))) ∧
    (∀ pre post t' s', events = pre ++ post →
      (recorder.writeResults batchSize pre t).run s = .ok t' s' →
      openBatch s'.2.calls = some (if t'.batchCount = 0 then none else some t'.batchCount) ∧
        s'.2.exportRunning = t'.batchCount) ∧
    final.2.exportRunning = 0 ∧
    final.1 = (ended ((recorder.writeResultToDb 1 events t).run s)).1 := by
  intro t s final
  have hstart : InStep t s db := inStep_start
  obtain ⟨t', ht', hin, hups⟩ := run_writeResultToDb batchSize events hstart
  obtain ⟨hclient, hcalls, hrun⟩ := hin.closed ht'
  obtain ⟨t₁, ht₁, hin₁, -⟩ := run_writeResultToDb 1 events hstart
  refine ⟨Recorder.traces_writeResultToDb _ _, ?_, ?_, hups, ⟨hcalls, hclient⟩, ?_, hrun, ?_⟩
  · obtain ⟨n, hn⟩ := commands_alternate hcalls
    exact ⟨n, hn.trans (List.append_nil _)⟩
  · intro pre ev post hsplit
    rw [hsplit] at hcalls
    have hpre := openBatch_before_finalize hcalls
    refine ⟨hpre, ?_⟩
    rintro pre₁ ev' pre₂ rfl
    exact commit_after_upsert hpre
  · intro pre post t₂ s₂ _ hloop
    obtain ⟨e', hin₂⟩ := inStep_of_writeResults inStep_start hloop
    exact ⟨hin₂.calls, hin₂.running⟩
  · exact hclient.trans (hin₁.closed ht₁).1.symm

end Ledger

end ScanDaemon
