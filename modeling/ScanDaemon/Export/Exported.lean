import ScanDaemon.Export.Finalize

/-! # Exported scans are finalised

A scan is in `exported_map` after its finalisation has returned without an
exception, and after a restart when `scan_task_table` has its row. Neither says
that the other transactions have been committed with all their statements.
-/

namespace ScanDaemon

open Relational Session

variable {row : ScanTaskRow} {event : FileEvent} {db d : Database} {o : Outcomes Path}
  {s s' : Client Database Path} {u : Unit}

/-- The tables after a statement that may fail. -/
def Database.tried (db : Database) (ok : Bool) (f : Database → Database) : Database :=
  bif ok then f db else db

theorem ScanTable.run_upsert_ok : (upsert row).run ⟨o, .closed d⟩ = .ok u s' ↔
    o.command 0 = some true ∧ o.command 1 = some true ∧ (o.statement 0).isSome ∧
      ⟨o.tailExecs.tailSteps.tailExecs,
        .closed (d.tried (o.passes 0) fun d => d.upsertTask row)⟩ = s' := by
  rw [upsert, run_transaction_ok (quiet_step.bind fun _ => .pure ())]
  simp only [run_bind_ok, run_step_ok, run_pure_ok]
  constructor
  · rintro ⟨h₀, s₁, ⟨ok, s₂, ⟨h, -, rfl⟩, -, rfl⟩, h₁, rfl⟩
    exact ⟨h₀, by simpa using h₁, h, rfl⟩
  · rintro ⟨h₀, h₁, h, rfl⟩
    exact ⟨h₀, _, ⟨_, _, ⟨h, rfl, rfl⟩, trivial, rfl⟩, by simpa using h₁, rfl⟩

/-- The outcomes after the statements of `mark_deleted`, of which a canceled scan has one. -/
def marked (canceled : Bool) (o : Outcomes Path) : Outcomes Path :=
  if canceled then o.tailSteps else o.tailSteps.tailSteps

section Marked

variable {c : Bool} {i : ℕ}

@[simp] theorem command_marked : (marked c o).command i = o.command i := by
  cases c <;> simp [marked]

@[simp] theorem rows_marked : (marked c o).rows i = o.rows i := by
  cases c <;> simp [marked]

@[simp] theorem statement_marked :
    (marked c o).statement i = o.statement (i + if c then 1 else 2) := by
  cases c <;> simp [marked]

@[simp] theorem passes_marked : (marked c o).passes i = o.passes (i + if c then 1 else 2) := by
  cases c <;> simp [marked]

end Marked

theorem IndexWriter.run_markDeleted_ok {info : DeleteTask} :
    (markDeleted info).run ⟨o, .closed d⟩ = .ok u s' ↔
      o.command 0 = some true ∧ o.command 1 = some true ∧ (o.statement 0).isSome ∧
        (info.canceled = false → (o.statement 1).isSome) ∧
          ⟨(marked info.canceled o.tailExecs).tailExecs,
            .closed ((d.tried (o.passes 0) fun d => d.markDeletedHistory info).tried
              (!info.canceled && o.passes 1) fun d => d.deleteCurrent info)⟩ = s' := by
  rw [markDeleted, run_transaction_ok quiet_markDeleted]
  cases info.canceled with
  | true =>
    simp only [run_bind_ok, run_step_ok, run_pure_ok, Bool.not_true, Bool.false_eq_true, if_false]
    constructor
    · rintro ⟨h₀, s₁, ⟨ok, s₂, ⟨h, -, rfl⟩, -, rfl⟩, h₁, rfl⟩
      exact ⟨h₀, by simpa using h₁, h, by simp, rfl⟩
    · rintro ⟨h₀, h₁, h, -, rfl⟩
      exact ⟨h₀, _, ⟨_, _, ⟨h, rfl, rfl⟩, trivial, rfl⟩, by simpa using h₁, rfl⟩
  | false =>
    simp only [run_bind_ok, run_step_ok, run_pure_ok, Bool.not_false, if_true]
    constructor
    · rintro ⟨h₀, s₁, ⟨ok, s₂, ⟨h, -, rfl⟩, ok', s₃, h', -, rfl⟩, h₁, rfl⟩
      obtain ⟨hok, -, rfl⟩ := run_step_ok.mp h'
      exact ⟨h₀, by simpa using h₁, h, fun _ => by simpa using hok,
        by simp [marked, Database.tried]⟩
    · rintro ⟨h₀, h₁, h, h', rfl⟩
      exact ⟨h₀, _,
        ⟨_, _, ⟨h, rfl, rfl⟩, _, _, run_step_ok.mpr ⟨by simpa using h' trivial, rfl, rfl⟩,
        trivial, rfl⟩, by simpa using h₁, by simp [marked, Database.tried]⟩

theorem IndexReader.run_findScanDiff_ok {id : ScanId} :
    (findScanDiff id).run ⟨o, .closed d⟩ = .ok u s' ↔
      o.command 0 = some true ∧ o.command 1 = some true ∧ ∃ kept, o.rows 0 = some kept ∧
        ⟨o.tailExecs.tailLoops.tailExecs, .closed (d.upsertDiff id kept)⟩ = s' := by
  rw [findScanDiff, run_transaction_ok quiet_stepEach]
  simp only [run_stepEach_ok]
  constructor
  · rintro ⟨h₀, s₁, ⟨kept, h, rfl⟩, h₁, rfl⟩
    exact ⟨h₀, by simpa using h₁, kept, h, rfl⟩
  · rintro ⟨h₀, h₁, kept, h, rfl⟩
    exact ⟨h₀, _, ⟨kept, h, rfl⟩, by simpa using h₁, rfl⟩

/-- The counts that `upsert_count` writes when its query may fail. -/
def Database.counted (id : ScanId) (found : Bool) (d : Database) : ScanCounts :=
  ((bif found then some d else none).bind fun d => d.getCount id).getD Database.noCounts

/-- `upsert_count` when its query and its update may fail. -/
def Database.countTried (id : ScanId) (found written : Bool) (d : Database) : Database :=
  d.tried written fun d => d.updateCount id (d.counted id found)

theorem ScanTable.run_upsertCount_ok {id : ScanId} :
    (upsertCount id).run ⟨o, .closed d⟩ = .ok u s' ↔
      o.command 0 = some true ∧ o.command 1 = some true ∧ (o.statement 0).isSome ∧
        (o.statement 1).isSome ∧
          ⟨o.tailExecs.tailSteps.tailSteps.tailExecs,
            .closed (d.countTried id (o.passes 0) (o.passes 1))⟩ = s' := by
  rw [upsertCount, run_transaction_ok
    (quiet_query.bind fun _ => quiet_step.bind fun _ => .pure ())]
  simp only [run_bind_ok, run_query_ok, run_pure_ok]
  constructor
  · rintro ⟨h₀, s₁, ⟨found, s₂, ⟨h, rfl, rfl⟩, ok', s₃, h', -, rfl⟩, h₁, rfl⟩
    obtain ⟨hok, -, rfl⟩ := run_step_ok.mp h'
    exact ⟨h₀, by simpa using h₁, h, by simpa using hok,
      by simp [Database.countTried, Database.tried, Database.counted]⟩
  · rintro ⟨h₀, h₁, h, h', rfl⟩
    exact ⟨h₀, _,
      ⟨_, _, ⟨h, rfl, rfl⟩, _, _, run_step_ok.mpr ⟨by simpa using h', rfl, rfl⟩, trivial,
      rfl⟩, by simpa using h₁, by simp [Database.countTried, Database.tried, Database.counted]⟩

namespace Database

variable {info : DeleteTask} {id : ScanId} {ok : Bool}

@[simp] theorem scanTask_tried_markDeletedHistory :
    (db.tried ok fun d => d.markDeletedHistory info).scanTask = db.scanTask := by
  cases ok <;> rfl

@[simp] theorem scanTask_tried_deleteCurrent :
    (db.tried ok fun d => d.deleteCurrent info).scanTask = db.scanTask := by
  cases ok <;> rfl

theorem find_of_fresh (hid : id < 2 ^ 64) (h : id ∉ db.exportedIds) :
    db.scanTask.find (int64 id) = none := by
  by_contra hf
  apply h
  rw [exportedIds, Finset.mem_image]
  refine ⟨int64 id, ?_, uint64_int64 hid⟩
  rw [Table.mem_keys]
  exact Option.isSome_iff_ne_none.mpr hf

theorem mem_exportedIds {r : TaskRow} (hid : id < 2 ^ 64)
    (h : db.scanTask.find (int64 id) = some r) : id ∈ db.exportedIds :=
  Finset.mem_image.mpr ⟨int64 id, Table.mem_keys_of_find h, uint64_int64 hid⟩

end Database

namespace ResultThread

/-- The tables that are stored when a session has ended. -/
def stored {α : Type} : EStateM.Result Halt (Client Database Path) α → Database
  | .ok _ s | .error _ s => s.connection.durable

/-- A scan is in `exported_map` after `finalize_scan` has entered it, or after a restart. -/
def Exported (id : ScanId) (r : EStateM.Result Halt (Client Database Path) Bool) : Prop :=
  (∃ s, r = .ok true s) ∨ id ∈ (stored r).exportedIds

/-- The first transaction commits the row of the scan. -/
def RowStored (o : Outcomes Path) : Prop :=
  o.command 0 = some true ∧ o.statement 0 = some true ∧ o.command 1 = some true

/-- No command fails and the process does not stop before the last `COMMIT`. -/
structure Completes (canceled : Bool) (o : Outcomes Path) : Prop where
  commands : ∀ i < 8, o.command i = some true
  statements : ∀ i < if canceled then 4 else 5, (o.statement i).isSome
  rows : (o.rows 0).isSome

/-- The number of the first statement of `upsert_count`. -/
def countAt (event : FileEvent) : ℕ := if event.endSignal.isCanceled then 2 else 3

/-- The statements that fail have nothing to write. -/
structure Harmless (row : ScanTaskRow) (event : FileEvent) (db : Database) (o : Outcomes Path) :
    Prop where
  task : o.statement 0 = some true
  mark : o.statement 1 = some true ∨ (db.upsertTask row).markDeletedHistory (event.deleteTask row) =
    db.upsertTask row
  delete : event.endSignal.isCanceled = true ∨ o.statement 2 = some true ∨
    ((db.upsertTask row).markDeletedHistory (event.deleteTask row)).deleteCurrent
      (event.deleteTask row) = (db.upsertTask row).markDeletedHistory (event.deleteTask row)
  diff : ∀ kept ∈ o.rows 0,
    ((db.upsertTask row).markDeleted (event.deleteTask row)).upsertDiff event.scanId kept =
      ((db.upsertTask row).markDeleted (event.deleteTask row)).findScanDiff event.scanId
  count : o.statement (countAt event) = some true ∨
    (((db.upsertTask row).markDeleted (event.deleteTask row)).getCount event.scanId).getD
      Database.noCounts = Database.noCounts
  update : o.statement (countAt event + 1) = some true

/-- The tables after three transactions that commit. -/
def prepared (row : ScanTaskRow) (event : FileEvent) (o : Outcomes Path) (kept : Path → Bool)
    (db : Database) : Database :=
  (((db.tried (o.passes 0) fun d => d.upsertTask row).tried (o.passes 1) fun d =>
    d.markDeletedHistory (event.deleteTask row)).tried
      (!event.endSignal.isCanceled && o.passes 2) fun d =>
        d.deleteCurrent (event.deleteTask row)).upsertDiff event.scanId kept

/-- The tables after four transactions that commit. -/
def tried (row : ScanTaskRow) (event : FileEvent) (o : Outcomes Path) (kept : Path → Bool)
    (db : Database) : Database :=
  (prepared row event o kept db).countTried event.scanId (o.passes (countAt event))
    (o.passes (countAt event + 1))

/-- What is known when all four transactions have committed. -/
theorem tried_of_ok (h : (inTurn (transactions row event)).run ⟨o, .closed db⟩ = .ok u s') :
    Completes event.endSignal.isCanceled o ∧
      ∃ kept ∈ o.rows 0, s'.connection = .closed (tried row event o kept db) := by
  have hinfo : (event.deleteTask row).canceled = event.endSignal.isCanceled := rfl
  simp only [transactions, run_inTurn_ok, run_inTurn_nil_ok] at h
  obtain ⟨s₁, h₁, s₂, h₂, s₃, h₃, s₄, h₄, rfl⟩ := h
  obtain ⟨c₀, c₁, t₀, rfl⟩ := ScanTable.run_upsert_ok.mp h₁
  obtain ⟨c₂, c₃, t₁, t₂, rfl⟩ := IndexWriter.run_markDeleted_ok.mp h₂
  obtain ⟨c₄, c₅, kept, hkept, rfl⟩ := IndexReader.run_findScanDiff_ok.mp h₃
  obtain ⟨c₆, c₇, t₃, t₄, rfl⟩ := ScanTable.run_upsertCount_ok.mp h₄
  clear h₁ h₂ h₃ h₄
  simp only [hinfo, Outcomes.command_tailExecs, Outcomes.command_tailSteps,
    Outcomes.command_tailLoops, command_marked, Outcomes.statement_tailExecs,
    Outcomes.statement_tailSteps, Outcomes.statement_tailLoops, statement_marked,
    Outcomes.rows_tailExecs, Outcomes.rows_tailSteps, rows_marked] at *
  refine ⟨⟨?_, ?_, by simp [hkept]⟩, kept, hkept, ?_⟩
  · intro i hi
    interval_cases i <;> assumption
  · intro i hi
    cases hc : event.endSignal.isCanceled <;> simp only [hc, if_true, Bool.false_eq_true, if_false]
      at hi t₂ t₃ t₄ <;> interval_cases i <;> simp_all
  · cases hc : event.endSignal.isCanceled <;> simp [tried, prepared, countAt, hc]

theorem ok_of_completes (row : ScanTaskRow) (db : Database)
    (h : Completes event.endSignal.isCanceled o) :
    ∃ s', (inTurn (transactions row event)).run ⟨o, .closed db⟩ = .ok () s' := by
  have hinfo : (event.deleteTask row).canceled = event.endSignal.isCanceled := rfl
  obtain ⟨kept, hkept⟩ := Option.isSome_iff_exists.mp h.rows
  have hc := h.commands
  have ht := h.statements
  have ht₀ : (o.statement 0).isSome := ht 0 (by split <;> omega)
  have ht₁ : (o.statement 1).isSome := ht 1 (by split <;> omega)
  have ht₂ : event.endSignal.isCanceled = false → (o.statement 2).isSome := fun he =>
    ht 2 (by simp [he])
  have ht₃ : ∀ i < 2, (o.statement (countAt event + i)).isSome := by
    intro i hi
    apply ht
    unfold countAt
    split <;> omega
  simp only [transactions, run_inTurn_ok, run_inTurn_nil_ok]
  refine ⟨_, _, ScanTable.run_upsert_ok.mpr ⟨hc 0 (by omega), hc 1 (by omega), ht₀, rfl⟩,
    _, IndexWriter.run_markDeleted_ok.mpr ⟨?_, ?_, ?_, ?_, rfl⟩,
    _, IndexReader.run_findScanDiff_ok.mpr ⟨?_, ?_, kept, ?_, rfl⟩,
    _, ScanTable.run_upsertCount_ok.mpr ⟨?_, ?_, ?_, ?_, rfl⟩, rfl⟩
  · simpa using hc 2 (by omega)
  · simpa using hc 3 (by omega)
  · simpa using ht₁
  · simpa [hinfo] using ht₂
  · simpa using hc 4 (by omega)
  · simpa using hc 5 (by omega)
  · simpa using hkept
  · simpa using hc 6 (by omega)
  · simpa using hc 7 (by omega)
  · have h₃ := ht₃ 0 (by omega)
    unfold countAt at h₃
    cases he : event.endSignal.isCanceled <;> simpa [hinfo, he] using h₃
  · have h₄ := ht₃ 1 (by omega)
    unfold countAt at h₄
    cases he : event.endSignal.isCanceled <;> simpa [hinfo, he] using h₄

/-- An exception after the first transaction leaves `scan_task_table` as it is. -/
theorem scanTask_of_error {h : Halt} (hr : (inTurn [IndexWriter.markDeleted (event.deleteTask row),
    IndexReader.findScanDiff event.scanId, ScanTable.upsertCount event.scanId]).run
      ⟨o, .closed d⟩ = .error h s') : s'.connection.durable.scanTask = d.scanTask := by
  rcases run_inTurn_error.mp hr with hr | ⟨s₁, h₁, hr⟩
  · rw [durable_of_error IndexWriter.quiet_markDeleted rfl hr]
    rfl
  obtain ⟨-, -, -, -, rfl⟩ := IndexWriter.run_markDeleted_ok.mp h₁
  rcases run_inTurn_error.mp hr with hr | ⟨s₂, h₂, hr⟩
  · rw [durable_of_error quiet_stepEach rfl hr]
    simp [Connection.closed]
  obtain ⟨-, -, kept, -, rfl⟩ := IndexReader.run_findScanDiff_ok.mp h₂
  rcases run_inTurn_error.mp hr with hr | ⟨s₃, h₃, hr⟩
  · rw [durable_of_error (quiet_query.bind fun _ => quiet_step.bind fun _ => .pure ()) rfl hr]
    simp [Connection.closed, Database.upsertDiff]
  · exact absurd hr run_inTurn_nil_error

/-- A finalisation that does not complete stores the row of the scan, without counts, exactly if
the first transaction stores it. -/
theorem scanTask_of_finalize_error {h : Halt}
    (hr : (inTurn (transactions row event)).run ⟨o, .closed db⟩ = .error h s') :
    (RowStored o ∧ s'.connection.durable.scanTask = (db.upsertTask row).scanTask) ∨
      (¬RowStored o ∧ s'.connection.durable.scanTask = db.scanTask) := by
  rcases run_inTurn_error.mp hr with hr | ⟨s₁, h₁, hr⟩
  · right
    constructor
    · rintro ⟨h₀, ht, h₁⟩
      have hok : (ScanTable.upsert row).run ⟨o, .closed db⟩ = .ok () _ :=
        ScanTable.run_upsert_ok.mpr ⟨h₀, h₁, by simp [ht], rfl⟩
      rw [hok] at hr
      cases hr
    · rw [durable_of_error (quiet_step.bind fun _ => .pure ()) rfl hr]
      rfl
  · obtain ⟨c₀, c₁, -, rfl⟩ := ScanTable.run_upsert_ok.mp h₁
    rw [scanTask_of_error hr]
    cases hp : o.passes 0 with
    | true => exact .inl ⟨⟨c₀, (Outcomes.passes_eq_true o).mp hp, c₁⟩, rfl⟩
    | false =>
      refine .inr ⟨?_, rfl⟩
      rintro ⟨-, ht, -⟩
      rw [(Outcomes.passes_eq_true o).mpr ht] at hp
      cases hp

/-! ## A finalisation that completes -/

section Harmless

variable {kept : Path → Bool} {info : DeleteTask}

theorem markDeletedHistory_eq (h : (db.markDeletedHistory info).indexHistory = db.indexHistory) :
    db.markDeletedHistory info = db :=
  Database.ext (fun k => by rw [h]) (fun _ => rfl) (fun _ => rfl) fun _ => rfl

theorem deleteCurrent_eq (h : (db.deleteCurrent info).indexCurrent = db.indexCurrent) :
    db.deleteCurrent info = db :=
  Database.ext (fun _ => rfl) (fun k => by rw [h]) (fun _ => rfl) fun _ => rfl

/-- `mark_deleted` with statements that fail only where they have nothing to write. -/
theorem tried_markDeleted (hm : o.passes 1 = true ∨ d.markDeletedHistory info = d)
    (hd : info.canceled = true ∨ o.passes 2 = true ∨
      (d.markDeletedHistory info).deleteCurrent info = d.markDeletedHistory info) :
    (d.tried (o.passes 1) fun d => d.markDeletedHistory info).tried
      (!info.canceled && o.passes 2) (fun d => d.deleteCurrent info) = d.markDeleted info := by
  have hmark : (d.tried (o.passes 1) fun d => d.markDeletedHistory info) =
      d.markDeletedHistory info := by
    unfold Database.tried
    cases ho : o.passes 1 with
    | true => rfl
    | false => exact (hm.resolve_left (by simp [ho])).symm
  rw [hmark, Database.markDeleted]
  cases hc : info.canceled with
  | true => rfl
  | false =>
    unfold Database.tried
    cases ho : o.passes 2 with
    | true => rfl
    | false => exact ((hd.resolve_left (by simp [hc])).resolve_left (by simp [ho])).symm

theorem find_countTried {id : ScanId} {found written : Bool} :
    (d.countTried id found written).scanTask.find (int64 id) =
      (d.scanTask.find (int64 id)).map fun r =>
        bif written then r.withCounts (d.counted id found) else r := by
  cases written with
  | true => simp [Database.countTried, Database.tried, Database.updateCount]
  | false => simp [Database.countTried, Database.tried]

/-- A failed query counts nothing, which is right when there is nothing to count. -/
theorem countTried_false {id : ScanId}
    (h : (d.getCount id).getD Database.noCounts = Database.noCounts) :
    d.countTried id false true = d.countTried id true true := by
  have hc : d.counted id false = d.counted id true := h.symm
  exact congrArg (fun c => d.updateCount id c) hc

theorem find_prepared (hrow : row.scanId = event.scanId)
    (hfree : db.scanTask.find (int64 event.scanId) = none) :
    (prepared row event o kept db).scanTask.find (int64 event.scanId) =
      bif o.passes 0 then some row.columns else none := by
  rw [prepared, Database.upsertDiff, Database.scanTask_tried_deleteCurrent,
    Database.scanTask_tried_markDeletedHistory]
  cases o.passes 0 with
  | true =>
    rw [← hrow] at hfree ⊢
    exact Database.find_upsertTask hfree
  | false => exact hfree

theorem indexHistory_countTried {id : ScanId} {found written : Bool} :
    (d.countTried id found written).indexHistory = d.indexHistory := by
  cases written <;> rfl

theorem indexCurrent_countTried {id : ScanId} {found written : Bool} :
    (d.countTried id found written).indexCurrent = d.indexCurrent := by
  cases written <;> rfl

theorem scanDiff_countTried {id : ScanId} {found written : Bool} :
    (d.countTried id found written).scanDiff = d.scanDiff := by
  cases written <;> rfl

theorem indexHistory_prepared : (prepared row event o kept db).indexHistory =
    bif o.passes 1 then ((db.upsertTask row).markDeletedHistory (event.deleteTask row)).indexHistory
    else db.indexHistory := by
  rw [prepared, Database.upsertDiff]
  cases o.passes 0 <;> cases o.passes 1 <;> cases !event.endSignal.isCanceled && o.passes 2 <;> rfl

theorem indexCurrent_prepared : (prepared row event o kept db).indexCurrent =
    bif !event.endSignal.isCanceled && o.passes 2
    then (db.deleteCurrent (event.deleteTask row)).indexCurrent else db.indexCurrent := by
  rw [prepared, Database.upsertDiff]
  cases o.passes 0 <;> cases o.passes 1 <;> cases !event.endSignal.isCanceled && o.passes 2 <;> rfl

/-- When the row is stored and the other statements have nothing to write where they fail. -/
theorem prepared_eq (ht : o.passes 0 = true)
    (hm : o.passes 1 = true ∨ (db.upsertTask row).markDeletedHistory (event.deleteTask row) =
      db.upsertTask row)
    (hd : event.endSignal.isCanceled = true ∨ o.passes 2 = true ∨
      ((db.upsertTask row).markDeletedHistory (event.deleteTask row)).deleteCurrent
        (event.deleteTask row) = (db.upsertTask row).markDeletedHistory (event.deleteTask row)) :
    prepared row event o kept db =
      ((db.upsertTask row).markDeleted (event.deleteTask row)).upsertDiff event.scanId kept := by
  have htask : (db.tried (o.passes 0) fun d => d.upsertTask row) = db.upsertTask row := by
    rw [ht]
    rfl
  rw [prepared, htask]
  congr 1
  exact tried_markDeleted hm hd

/-- Equal rows of the scan: the row is stored, and the counts are. -/
theorem counted_of_eq {r : TaskRow} {stored written : Bool} {c c' : ScanCounts}
    (hr : r.counts = none) (h : ((bif stored then some r else none).map fun r =>
      bif written then r.withCounts c else r) = some (r.withCounts c')) :
    stored = true ∧ written = true ∧ c = c' := by
  cases stored with
  | false => simp at h
  | true =>
    have hcounts := congrArg TaskRow.counts (Option.some.inj h)
    cases written with
    | false => exact absurd (hr.symm.trans hcounts) (by simp [TaskRow.withCounts])
    | true => exact ⟨rfl, rfl, Option.some.inj hcounts⟩

/-- The tables are those of a finalisation without a failure exactly if the calls that fail are
harmless. -/
theorem tried_eq_iff (hrow : row.scanId = event.scanId)
    (hfree : db.scanTask.find (int64 event.scanId) = none) (hkept : kept ∈ o.rows 0) :
    tried row event o kept db = db.finalize row event ↔ Harmless row event db o := by
  have hfull : db.finalize row event = (((db.upsertTask row).markDeleted
      (event.deleteTask row)).findScanDiff event.scanId).countTried event.scanId true true := rfl
  have ht : (((db.upsertTask row).markDeleted (event.deleteTask row)).findScanDiff
      event.scanId).scanTask.find (int64 event.scanId) = some row.columns := by
    rw [Database.findScanDiff, Database.scanTask_markDeleted]
    rw [← hrow] at hfree ⊢
    exact Database.find_upsertTask hfree
  rw [hfull, tried]
  constructor
  · intro h
    have hfind := congrArg (fun d => d.scanTask.find (int64 event.scanId)) h
    have hhistory := congrArg Database.indexHistory h
    have hcurrent := congrArg Database.indexCurrent h
    have hdiff := congrArg Database.scanDiff h
    simp only [find_countTried, find_prepared hrow hfree, ht] at hfind
    obtain ⟨hp₀, hpu, hcount⟩ := counted_of_eq rfl hfind
    rw [indexHistory_countTried, indexHistory_countTried] at hhistory
    rw [indexCurrent_countTried, indexCurrent_countTried] at hcurrent
    rw [scanDiff_countTried, scanDiff_countTried] at hdiff
    have hm : o.passes 1 = true ∨ (db.upsertTask row).markDeletedHistory (event.deleteTask row) =
        db.upsertTask row := by
      cases hp : o.passes 1 with
      | true => exact .inl rfl
      | false =>
        right
        apply markDeletedHistory_eq
        rw [indexHistory_prepared, hp, cond_false, Database.findScanDiff,
          Database.indexHistory_markDeleted] at hhistory
        exact hhistory.symm
    have hd : event.endSignal.isCanceled = true ∨ o.passes 2 = true ∨
        ((db.upsertTask row).markDeletedHistory (event.deleteTask row)).deleteCurrent
          (event.deleteTask row) =
            (db.upsertTask row).markDeletedHistory (event.deleteTask row) := by
      cases hc : event.endSignal.isCanceled with
      | true => exact .inl rfl
      | false =>
        right
        cases hp : o.passes 2 with
        | true => exact .inl rfl
        | false =>
          right
          apply deleteCurrent_eq
          have hinfo : (event.deleteTask row).canceled = false := hc
          rw [indexCurrent_prepared, hp, Bool.and_false, cond_false, Database.findScanDiff,
            Database.markDeleted, hinfo] at hcurrent
          exact hcurrent.symm
    rw [prepared_eq hp₀ hm hd] at hdiff hcount
    constructor
    · exact (Outcomes.passes_eq_true o).mp hp₀
    · exact hm.imp_left (Outcomes.passes_eq_true o).mp
    · exact hd.imp_right fun h => h.imp_left (Outcomes.passes_eq_true o).mp
    · intro kept' hkept'
      obtain rfl : kept = kept' := Option.mem_unique hkept hkept'
      exact Database.ext (fun _ => rfl) (fun _ => rfl) (fun _ => rfl) fun k => by rw [hdiff]
    · cases hp : o.passes (countAt event) with
      | true => exact .inl ((Outcomes.passes_eq_true o).mp hp)
      | false =>
        rw [hp] at hcount
        exact .inr hcount.symm
    · exact (Outcomes.passes_eq_true o).mp hpu
  · intro h
    rw [prepared_eq ((Outcomes.passes_eq_true o).mpr h.task)
      (h.mark.imp_left (Outcomes.passes_eq_true o).mpr)
      (h.delete.imp_right fun h => h.imp_left (Outcomes.passes_eq_true o).mpr), h.diff kept hkept,
      (Outcomes.passes_eq_true o).mpr h.update]
    rcases h.count with hc | hc
    · rw [(Outcomes.passes_eq_true o).mpr hc]
    · cases o.passes (countAt event) with
      | true => rfl
      | false => exact countTried_false hc

end Harmless

/-- Whether a scan whose id is found in `exported_map` after its finalisation, or after a restart,
is finalised: it is if all transactions commit with nothing lost, or if the first one does not
store the row and another call fails or the process stops. -/
theorem exported_finalized (db : Database) (o : Outcomes Path) (hid : event.scanId < 2 ^ 64)
    (hrow : row.scanId = event.scanId) (hfresh : event.scanId ∉ db.exportedIds) :
    (Exported event.scanId ((finalizeScan row event).run ⟨o, .closed db⟩) →
        stored ((finalizeScan row event).run ⟨o, .closed db⟩) = db.finalize row event) ↔
      (RowStored o ∨ Completes event.endSignal.isCanceled o →
        Completes event.endSignal.isCanceled o ∧ Harmless row event db o) := by
  have hfree := Database.find_of_fresh hid hfresh
  cases hr : (inTurn (transactions row event)).run ⟨o, .closed db⟩ with
  | ok u s' =>
    have hrun : (finalizeScan row event).run ⟨o, .closed db⟩ = .ok true s' := by
      rw [EStateM.run] at hr
      simp only [finalizeScan, EStateM.run, attempt, hr]
    obtain ⟨hcomplete, kept, hkept, hs⟩ := tried_of_ok hr
    have hstored : stored (.ok true s') = tried row event o kept db := by
      rw [stored, hs]
      rfl
    have hexported : Exported event.scanId (.ok true s') := .inl ⟨s', rfl⟩
    rw [hrun, hstored, tried_eq_iff hrow hfree hkept]
    simp only [hexported, hcomplete, or_true, true_and, true_implies]
  | error h s' =>
    have hcomplete : ¬Completes event.endSignal.isCanceled o := by
      intro hc
      obtain ⟨s₁, hok⟩ := ok_of_completes row db hc
      rw [hok] at hr
      cases hr
    obtain ⟨r, hrun, hstored, hthrew⟩ : ∃ r, (finalizeScan row event).run ⟨o, .closed db⟩ = r ∧
        stored r = s'.connection.durable ∧ ∀ s, r ≠ .ok true s := by
      refine ⟨_, rfl, ?_⟩
      rw [EStateM.run] at hr
      simp only [finalizeScan, EStateM.run, attempt, hr]
      cases h with
      | threw => exact ⟨rfl, by simp⟩
      | stopped => exact ⟨rfl, by simp⟩
    rw [hrun, hstored]
    rcases scanTask_of_finalize_error hr with ⟨hrow', htask⟩ | ⟨hrow', htask⟩
    · have hfind : s'.connection.durable.scanTask.find (int64 event.scanId) = some row.columns := by
        rw [htask]
        rw [← hrow] at hfree ⊢
        exact Database.find_upsertTask hfree
      apply iff_of_false
      · intro hex
        have heq := hex (.inr (hstored ▸ Database.mem_exportedIds hid hfind))
        obtain ⟨c, hc⟩ := Database.find_finalize hrow hfree
        rw [← heq, hfind] at hc
        cases congrArg TaskRow.counts (Option.some.inj hc)
      · exact fun hex => hcomplete (hex (.inl hrow')).1
    · apply iff_of_true
      · rintro (⟨s, hs⟩ | hex)
        · exact absurd hs (hthrew s)
        · rw [hstored, Database.exportedIds, htask] at hex
          exact absurd hex hfresh
      · rintro (hr' | hc)
        · exact absurd hr' hrow'
        · exact absurd hc hcomplete

theorem exported_finalized_flawless :
    (Exported 1 ((finalizeScan smallRow smallEnd).run ⟨.flawless, .closed .empty⟩) →
        stored ((finalizeScan smallRow smallEnd).run ⟨.flawless, .closed .empty⟩) =
          Database.empty.finalize smallRow smallEnd) ↔
      (RowStored .flawless ∨ Completes false .flawless →
        Completes false .flawless ∧ Harmless smallRow smallEnd .empty .flawless) :=
  have hrow : smallRow.scanId = smallEnd.scanId := rfl
  exported_finalized .empty .flawless (by decide) hrow (by decide)

/-- The process stops after the first `COMMIT`; the next one finds the scan in the table. -/
theorem exported_unfinished :
    Exported 1 ((finalizeScan smallRow smallEnd).run
        ⟨⟨[true, true], [true], [], false⟩, .closed .empty⟩) ∧
      stored ((finalizeScan smallRow smallEnd).run
        ⟨⟨[true, true], [true], [], false⟩, .closed .empty⟩) ≠
          Database.empty.finalize smallRow smallEnd := by
  have hstored : stored ((finalizeScan smallRow smallEnd).run
      ⟨⟨[true, true], [true], [], false⟩, .closed .empty⟩) =
        Database.empty.upsertTask smallRow := rfl
  have hfree : Database.empty.scanTask.find (int64 smallRow.scanId) = none := rfl
  have hfind := Database.find_upsertTask hfree
  constructor
  · right
    rw [hstored]
    exact Database.mem_exportedIds (by decide) hfind
  · intro heq
    have hrow : smallRow.scanId = smallEnd.scanId := rfl
    obtain ⟨c, hc⟩ := Database.find_finalize hrow hfree
    rw [← heq, hstored] at hc
    cases congrArg TaskRow.counts (Option.some.inj (hfind.symm.trans hc))

end ResultThread

end ScanDaemon
