import ScanDaemon.Export.Restart
import ScanDaemon.Library.Growth

/-! # What the tables keep of past scans

The history and the diffs are only added to, and a row of `scan_task_table`
changes in its counts alone: along every run over any number of processes,
whichever calls fail and wherever a process stops.
-/

namespace ScanDaemon

open Relational TracedSession Connection

/-- The same scan, whose counts may have been filled in. -/
structure TaskRow.SameScan (r r' : TaskRow) : Prop where
  columns : { r' with counts := r.counts } = r
  counted : r.counts.isSome → r'.counts.isSome

namespace Database

/-- The tables `db'` keep what `db` says of past scans. -/
structure KeptIn (db db' : Database) : Prop where
  history : db.indexHistory.Within db'.indexHistory
  diff : db.scanDiff.Within db'.scanDiff
  task : ∀ i r, db.scanTask.find i = some r → ∃ r', db'.scanTask.find i = some r' ∧ r.SameScan r'

variable {db db' db'' : Database} {event : FileEvent} {info : DeleteTask} {row : ScanTaskRow}
  {id : ScanId}

/-- Tables whose rows of the scans are the same. -/
theorem keptIn_of_scanTask (hh : db.indexHistory.Within db'.indexHistory)
    (hd : db.scanDiff.Within db'.scanDiff) (ht : db.scanTask.Within db'.scanTask) :
    db.KeptIn db' :=
  ⟨hh, hd, fun i r hr => ⟨r, ht i r hr, rfl, id⟩⟩

theorem KeptIn.refl (db : Database) : db.KeptIn db :=
  keptIn_of_scanTask Table.Within.refl Table.Within.refl Table.Within.refl

theorem KeptIn.trans (h : db.KeptIn db') (h' : db'.KeptIn db'') : db.KeptIn db'' := by
  refine ⟨h.history.trans h'.history, h.diff.trans h'.diff, ?_⟩
  intro i r hr
  obtain ⟨r', hr', hs⟩ := h.task i r hr
  obtain ⟨r'', hr'', hs'⟩ := h'.task i r' hr'
  refine ⟨r'', hr'', ?_, fun hc => hs'.counted (hs.counted hc)⟩
  rw [← hs.columns, ← hs'.columns]

theorem keptIn_upsertCurrent : db.KeptIn (db.upsertCurrent event) :=
  keptIn_of_scanTask Table.Within.refl Table.Within.refl Table.Within.refl

theorem keptIn_upsertHistory : db.KeptIn (db.upsertHistory event) :=
  keptIn_of_scanTask Table.within_insertRow Table.Within.refl Table.Within.refl

theorem keptIn_markDeletedHistory : db.KeptIn (db.markDeletedHistory info) :=
  keptIn_of_scanTask Table.within_insertAll Table.Within.refl Table.Within.refl

theorem keptIn_deleteCurrent : db.KeptIn (db.deleteCurrent info) :=
  keptIn_of_scanTask Table.Within.refl Table.Within.refl Table.Within.refl

theorem keptIn_upsertTask : db.KeptIn (db.upsertTask row) :=
  keptIn_of_scanTask Table.Within.refl Table.Within.refl Table.within_insertRow

theorem keptIn_upsertDiff {kept : Path → Bool} : db.KeptIn (db.upsertDiff id kept) :=
  keptIn_of_scanTask Table.Within.refl Table.within_insertEach Table.Within.refl

theorem keptIn_updateCount {counts : ScanCounts} : db.KeptIn (db.updateCount id counts) := by
  refine ⟨Table.Within.refl, Table.Within.refl, ?_⟩
  intro i r hr
  rw [updateCount, Table.find_modify, hr]
  split_ifs
  · exact ⟨_, rfl, rfl, fun _ => rfl⟩
  · exact ⟨r, rfl, rfl, fun hc => hc⟩

end Database

namespace Archive

variable {T : Type} {R : Recorder T} {d₀ : Database} {event : FileEvent} {row : ScanTaskRow}
  {t : ResultThread} {batchSize : ℕ}

/-- The connection has only added to the tables `d₀`. -/
abbrev Added (d₀ : Database) (c : Connection Database) (_ : T) : Prop :=
  Grown Database.KeptIn d₀ c

theorem keeps_step {f : Database → Database} (hf : ∀ db : Database, db.KeptIn (f db)) :
    Keeps (Added (T := T) d₀) (lift (Session.step f : DatabaseSession Bool)) :=
  Keeps.step fun _ _ h => h.update (fun _ _ _ => .trans) hf

theorem keeps_begin (f : T → T) :
    Keeps (K := Path) (Added d₀) (do lift Session.begin; TracedSession.note f) :=
  Keeps.begin fun _ _ h => h.begin .refl

theorem keeps_commit (f : T → T) :
    Keeps (K := Path) (Added d₀) (do lift Session.commit; TracedSession.note f) :=
  Keeps.commit fun _ _ _ h => h.commit fun _ _ _ => .trans

theorem keeps_note (f : T → T) :
    Keeps (K := Path) (Added d₀) (TracedSession.note f) := Keeps.note fun _ _ h => h

theorem keeps_upsert : Keeps (Added (T := T) d₀) (lift (IndexWriter.upsert event)) := by
  unfold IndexWriter.upsert
  refine Keeps.query.lift_bind fun found =>
    (keeps_step fun _ => Database.keptIn_upsertCurrent).lift_bind fun _ => ?_
  split_ifs
  · exact Keeps.lift_pure ()
  · exact (keeps_step fun _ => Database.keptIn_upsertHistory).lift_bind fun _ => Keeps.lift_pure ()

theorem keeps_transaction {q : RecordedSession T Unit} (hq : Keeps (Added d₀) q) :
    Keeps (Added d₀) (transaction R.begin R.commit q) :=
  Keeps.transaction (fun _ _ h => h.begin .refl) hq fun _ _ _ h => h.commit fun _ _ _ => .trans

/-- The transactions of a finalisation. -/
theorem keeps_statements : ∀ q ∈ R.statements row event,
    Keeps (Added d₀) (transaction R.begin R.commit q) := by
  intro q hq
  simp only [Recorder.statements, List.mem_cons, List.not_mem_nil, or_false] at hq
  rcases hq with rfl | rfl | rfl | rfl
  · apply keeps_transaction
    exact (keeps_step fun _ => Database.keptIn_upsertTask).bind fun _ => keeps_note _
  · apply keeps_transaction
    apply (keeps_note _).bind
    intro _
    refine (keeps_step fun _ => Database.keptIn_markDeletedHistory).lift_bind fun _ => ?_
    split_ifs
    · exact (keeps_step fun _ => Database.keptIn_deleteCurrent).lift_bind fun _ =>
        Keeps.lift_pure ()
    · exact Keeps.lift_pure ()
  · apply keeps_transaction
    apply Keeps.stepEach
    intro kept c _ h
    exact h.update (fun _ _ _ => .trans) fun _ => Database.keptIn_upsertDiff
  · apply keeps_transaction
    exact Keeps.query.lift_bind fun found =>
      (keeps_step fun _ => Database.keptIn_updateCount).lift_bind fun _ => Keeps.lift_pure ()

theorem keeps_commitBatch : Keeps (Added d₀) (R.commitBatch t) := by
  unfold Recorder.commitBatch
  split_ifs
  · have hcommit : Keeps (K := Path) (Added d₀)
        (do lift Session.commit; TracedSession.note R.commit) := keeps_commit R.commit
    have hk := hcommit.bind fun _ =>
      (keeps_note (R.batch t.batchCount)).bind fun _ => Keeps.pure { t with batchCount := 0 }
    simp only [bind_assoc] at hk
    exact hk
  · exact Keeps.pure _

theorem keeps_finalizeEvent : Keeps (Added d₀) (R.finalizeEvent event t) := by
  unfold Recorder.finalizeEvent
  apply (keeps_note _).bind
  intro _
  cases t.pendingScanRows.lookup event.scanId with
  | none => exact Keeps.throw _
  | some row =>
    have hfin : Keeps (Added d₀) (R.finalizeScan (row.withRoot event.path) event) := by
      apply Keeps.attempt
      apply Keeps.inTurn
      intro q hq
      obtain ⟨p, hp, rfl⟩ := List.mem_map.mp hq
      exact keeps_statements p hp
    exact hfin.bind fun _ => Keeps.pure _

/-- The loop only adds to the tables, whatever fails and wherever it stops. -/
theorem keeps_writeResult : Keeps (Added d₀) (R.writeResult batchSize event t) := by
  unfold Recorder.writeResult
  split_ifs
  · exact keeps_commitBatch.bind fun _ => keeps_finalizeEvent
  · have hbegin : Keeps (Added d₀) (R.beginBatch t) := by
      unfold Recorder.beginBatch
      split_ifs
      · exact keeps_begin _
      · exact Keeps.pure ()
    apply hbegin.bind
    intro _
    apply (keeps_note _).bind
    intro _
    apply keeps_upsert.bind
    intro _
    dsimp only
    split_ifs
    · exact keeps_commitBatch
    · exact Keeps.pure _

end Archive

namespace Process

variable {p p' : Process} {batchSize : ℕ} {a : ProcessAction} {d₀ : Database}

theorem grown_step (hs : step batchSize p a = some p')
    (h : Grown Database.KeptIn d₀ p.connection) : Grown Database.KeptIn d₀ p'.connection := by
  cases a with
  | draw =>
    cases hs
    exact h
  | register row =>
    simp only [step] at hs
    split_ifs at hs
    cases hs
    exact h
  | write event outcomes =>
    obtain ⟨t, -, hs⟩ := Option.bind_eq_some_iff.mp hs
    split_ifs at hs
    cases hs
    exact Archive.keeps_writeResult ⟨outcomes, p.connection⟩ p.writers h
  | finish outcomes =>
    obtain ⟨t, -, hs⟩ := Option.bind_eq_some_iff.mp hs
    cases hs
    exact Archive.keeps_commitBatch ⟨outcomes, p.connection⟩ p.writers h
  | restart =>
    cases hs
    exact grown_closed h.durable

/-- In every reachable state the open transaction has only added to what is stored. -/
theorem grown_of_reachable (h : (system batchSize).Reachable p) :
    Grown Database.KeptIn p.connection.durable p.connection := by
  have hempty : Grown Database.KeptIn .empty p.connection := by
    apply h.invariant (grown_closed (.refl _))
    intro p a p' _ _ hs hp
    exact grown_step hs hp
  exact ⟨.refl _, hempty.working⟩

/-- What the tables say durably of past scans stays, through every later failure, stop and
restart. -/
theorem past_scans_stay (h : (system batchSize).Reachable p)
    (hl : (system batchSize).Leads p p') :
    (∀ k r, p.connection.durable.indexHistory.find k = some r →
      p'.connection.durable.indexHistory.find k = some r) ∧
    (∀ k r, p.connection.durable.scanDiff.find k = some r →
      p'.connection.durable.scanDiff.find k = some r) ∧
    ∀ i r, p.connection.durable.scanTask.find i = some r →
      ∃ r', p'.connection.durable.scanTask.find i = some r' ∧ r'.submitRoot = r.submitRoot ∧
        r'.startTime = r.startTime ∧ r'.finishTime = r.finishTime ∧ r'.endState = r.endState ∧
        (r.counts.isSome → r'.counts.isSome) := by
  have hgrown : Grown Database.KeptIn p.connection.durable p'.connection :=
    hl.stable h (grown_of_reachable h) fun _ _ _ _ hs hp => grown_step hs hp
  refine ⟨hgrown.durable.history, hgrown.durable.diff, ?_⟩
  intro i r hr
  obtain ⟨r', hr', hsame⟩ := hgrown.durable.task i r hr
  have hcols := hsame.columns
  refine ⟨r', hr', ?_, ?_, ?_, ?_, hsame.counted⟩
  · rw [← hcols]
  · rw [← hcols]
  · rw [← hcols]
  · rw [← hcols]

/-- After the first batch of a scan the process stops, and the next one finds its row. -/
theorem past_scans_stay_stored :
    (start stored.connection.durable stored.writers.durable).connection.durable.indexHistory.find
      (firstEvent.path, int64 firstEvent.scanId) = some firstEvent.row := by
  have hrestart : (system 1).step stored .restart =
      some (start stored.connection.durable stored.writers.durable) := rfl
  have hleads : (system 1).Leads stored (start stored.connection.durable stored.writers.durable) :=
    .single ⟨.restart, hrestart⟩
  have hchanged : (firstEvent.row.mtime, firstEvent.row.msize) ≠
      Database.empty.fingerprint firstEvent.path := by
    intro h
    have hmtime : int64 5 = -1 := congrArg Prod.fst h
    have hfive : int64 5 = 5 := int64_eq_self (n := 5) (by norm_num)
    omega
  have hrow : stored.connection.durable.indexHistory.find
      (firstEvent.path, int64 firstEvent.scanId) = some firstEvent.row := by
    change (Database.empty.upsert firstEvent).indexHistory.find _ = _
    rw [Database.find_history_upsert, if_neg hchanged]
    rfl
  exact (past_scans_stay reach_stored.reachable hleads).1 _ _ hrow

end Process

end ScanDaemon
