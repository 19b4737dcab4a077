import ScanDaemon.Export.Recording
import ScanDaemon.Library.System

/-! # Scan ids over restarts

A process draws its ids from the largest one in `scan_task_table`, which a scan
enters when it is finalised. Its events are committed before, in batches. The
record of the result thread is here which scans have written to the index and
which have their row, as the connection sees it: what of it is durable is what a
restart leaves behind.
-/

namespace ScanDaemon

open Relational TracedSession Interleave

/-- The scans under whose ids the index was written, and those whose row was inserted. -/
structure Written where
  index : Finset ScanId
  rows : Finset ScanId

namespace Written

def nothing : Written := ⟨∅, ∅⟩

@[simps] def write (id : ScanId) (W : Written) : Written := { W with index := insert id W.index }

@[simps] def insertRow (id : ScanId) (W : Written) : Written := { W with rows := insert id W.rows }

end Written

/-- What the scans have written, in the open transaction and durably. -/
abbrev Writers := Connection Written

namespace Writers

/-- An event is written under the id of its scan, and so are the marks of a sentinel. -/
def recorder : Recorder Writers where
  begin w := .opened w.durable w.durable
  commit w := .closed w.contents
  upsert event w := w.update (.write event.scanId)
  batch _ := id
  finalize _ := id
  insertRow row w := w.update (.insertRow row.scanId)
  mark event w := w.update (.write event.scanId)

end Writers

namespace Database

/-- The rows of the index carry ids of scans that have written, and the scans whose row was inserted
are in `scan_task_table`, the ids of which are integers of 64 bits. -/
structure WrittenBy (db : Database) (W : Written) : Prop where
  history : ∀ path i, (db.indexHistory.find (path, i)).isSome → ∃ id ∈ W.index, i = int64 id
  current : ∀ path c, db.indexCurrent.find path = some c → ∃ id ∈ W.index, c.scanId = int64 id
  task : ∀ i, (db.scanTask.find i).isSome → i < 2 ^ 63
  rows : ∀ id ∈ W.rows, (db.scanTask.find (int64 id)).isSome

variable {db : Database} {W : Written} {event : FileEvent} {info : DeleteTask}
  {row : ScanTaskRow} {id : ScanId}

theorem writtenBy_empty : empty.WrittenBy .nothing := by
  constructor
  · intro path i hs
    cases hs
  · intro path c hc
    cases hc
  · intro i hs
    cases hs
  · intro id hid
    cases hid

/-- A scan is named before it writes. -/
theorem WrittenBy.write (h : db.WrittenBy W) : db.WrittenBy (W.write id) := by
  refine ⟨?_, ?_, h.task, h.rows⟩
  · intro path i hs
    obtain ⟨id', hid, hi⟩ := h.history path i hs
    exact ⟨id', Finset.mem_insert_of_mem hid, hi⟩
  · intro path c hc
    obtain ⟨id', hid, hi⟩ := h.current path c hc
    exact ⟨id', Finset.mem_insert_of_mem hid, hi⟩

theorem int64_lt (n : ℤ) : int64 n < 2 ^ 63 := by
  rw [int64]
  have h := Int.bmod_lt (x := n) (m := 2 ^ 64) (by decide)
  omega

theorem WrittenBy.upsertCurrent (h : db.WrittenBy W) (hid : event.scanId ∈ W.index) :
    (db.upsertCurrent event).WrittenBy W := by
  refine ⟨h.history, ?_, h.task, h.rows⟩
  intro path c hc
  rw [Database.upsertCurrent, Table.find_replace] at hc
  split_ifs at hc
  · obtain rfl := Option.some.inj hc
    exact ⟨event.scanId, hid, rfl⟩
  · exact h.current path c hc

theorem WrittenBy.upsertHistory (h : db.WrittenBy W) (hid : event.scanId ∈ W.index) :
    (db.upsertHistory event).WrittenBy W := by
  refine ⟨?_, h.current, h.task, h.rows⟩
  intro path i hs
  rw [Database.upsertHistory, Table.find_insertRow] at hs
  split_ifs at hs with hk
  · exact ⟨event.scanId, hid, congrArg Prod.snd hk⟩
  · exact h.history path i hs

theorem WrittenBy.markDeletedHistory (h : db.WrittenBy W) (hid : info.scanId ∈ W.index) :
    (db.markDeletedHistory info).WrittenBy W := by
  refine ⟨?_, h.current, h.task, h.rows⟩
  intro path i hs
  by_cases hi : i = int64 info.scanId
  · exact ⟨info.scanId, hid, hi⟩
  · rw [Database.markDeletedHistory, Table.insertAll] at hs
    split_ifs at hs
    · rw [Table.find_insertEach, find_marks_of_ne hi, Option.or_none] at hs
      exact h.history path i hs
    · exact h.history path i hs

theorem WrittenBy.deleteCurrent (h : db.WrittenBy W) : (db.deleteCurrent info).WrittenBy W := by
  refine ⟨h.history, ?_, h.task, h.rows⟩
  intro path c hc
  rw [Database.deleteCurrent, Table.find_delete, Option.filter_eq_some_iff] at hc
  exact h.current path c hc.1

theorem WrittenBy.upsertTask (h : db.WrittenBy W) :
    (db.upsertTask row).WrittenBy (W.insertRow row.scanId) := by
  have hfind : ∀ i, ((db.upsertTask row).scanTask.find i).isSome ↔
      i = int64 row.scanId ∨ (db.scanTask.find i).isSome := by
    intro i
    rw [← Table.mem_keys, ← Table.mem_keys, Database.upsertTask, Table.keys_insertRow,
      Finset.mem_insert]
  refine ⟨h.history, h.current, ?_, ?_⟩
  · intro i hs
    rcases (hfind i).mp hs with rfl | hs
    · exact int64_lt _
    · exact h.task i hs
  · intro id hid
    rcases Finset.mem_insert.mp hid with rfl | hid
    · exact (hfind _).mpr (.inl rfl)
    · exact (hfind _).mpr (.inr (h.rows id hid))

theorem WrittenBy.upsertDiff {kept : Path → Bool} (h : db.WrittenBy W) :
    (db.upsertDiff id kept).WrittenBy W := ⟨h.history, h.current, h.task, h.rows⟩

theorem WrittenBy.updateCount {counts : ScanCounts} (h : db.WrittenBy W) :
    (db.updateCount id counts).WrittenBy W := by
  have hfind : ∀ i, ((db.updateCount id counts).scanTask.find i).isSome =
      (db.scanTask.find i).isSome := by
    intro i
    rw [Database.updateCount, Table.find_modify]
    split_ifs
    · rw [Option.isSome_map]
    · rfl
  exact ⟨h.history, h.current, fun i hs => h.task i (hfind i ▸ hs),
    fun id hid => (hfind _).trans (h.rows id hid)⟩

/-- An id that is not above one in `scan_task_table` is below the next one to be drawn. -/
theorem lt_getMaxId (h : db.WrittenBy W) {k k' : ℕ} (hs : (db.scanTask.find (int64 k')).isSome)
    (hk' : k' < 2 ^ 63) (hle : k ≤ k') : k < (db.getMaxId + 1) % 2 ^ 64 := by
  have hkey : int64 k' ∈ db.scanTask.keys := (db.scanTask.mem_keys _).mpr hs
  have hne : db.scanTask.keys.Nonempty := ⟨_, hkey⟩
  rw [int64_eq_self hk'] at hkey
  have hmax := Finset.le_max' _ _ hkey
  have hlt := h.task _ ((db.scanTask.mem_keys _).mp (Finset.max'_mem _ hne))
  have hid : db.getMaxId = (db.scanTask.keys.max' hne % 2 ^ 64).toNat := by
    rw [getMaxId, dif_pos hne, uint64]
  rw [hid]
  omega

end Database

namespace Writers

variable {c : Connection Database} {w : Writers} {k : ScanId} {f : Database → Database}

/-- What the connection holds is written by the scans that the record names. -/
structure Shadows (c : Connection Database) (w : Writers) : Prop where
  durable : c.durable.WrittenBy w.durable
  working : ∀ e, c.working = some e → ∃ W, w.working = some W ∧ e.WrittenBy W
  outside : c.working = none → w.working = none

/-- The scan `k` is one of those that have written. -/
def Names (k : ScanId) (c : Connection Database) (w : Writers) : Prop :=
  Shadows c w ∧ k ∈ w.contents.index

theorem shadows_closed {db : Database} {W : Written} (h : db.WrittenBy W) :
    Shadows (.closed db) (.closed W) := by
  refine ⟨h, ?_, fun _ => rfl⟩
  intro e he
  cases he

theorem shadows_begin {db : Database} (h : Shadows (.closed db) w) :
    Shadows (.opened db db) (recorder.begin w) := by
  refine ⟨h.durable, ?_, ?_⟩
  · intro e he
    obtain rfl := Option.some.inj he
    exact ⟨w.durable, rfl, h.durable⟩
  · intro hn
    cases hn

theorem shadows_commit {d e : Database} (h : Shadows (.opened d e) w) :
    Shadows (.closed e) (recorder.commit w) := by
  obtain ⟨W, hw, he⟩ := h.working e rfl
  have hc : w.contents = W := by simp [Connection.contents, hw]
  apply shadows_closed
  rw [hc]
  exact he

theorem names_commit {d e : Database} (h : Names k (.opened d e) w) :
    Names k (.closed e) (recorder.commit w) := ⟨shadows_commit h.1, h.2⟩

/-- A statement and its note. -/
theorem shadows_change {g : Written → Written} (h : Shadows c w)
    (hf : ∀ db, db.WrittenBy w.contents → (f db).WrittenBy (g w.contents)) :
    Shadows (c.update f) (w.update g) := by
  cases hc : c.working with
  | none =>
    have hw := h.outside hc
    have hcu : c.update f = .closed (f c.durable) := by simp [Connection.update, hc]
    have hwu : w.update g = .closed (g w.durable) := by simp [Connection.update, hw]
    have hcont : w.contents = w.durable := by simp [Connection.contents, hw]
    rw [hcont] at hf
    rw [hcu, hwu]
    exact shadows_closed (hf _ h.durable)
  | some e =>
    obtain ⟨W, hw, he⟩ := h.working e hc
    have hcu : c.update f = .opened c.durable (f e) := by simp [Connection.update, hc]
    have hwu : w.update g = .opened w.durable (g W) := by simp [Connection.update, hw]
    have hcont : w.contents = W := by simp [Connection.contents, hw]
    rw [hcont] at hf
    rw [hcu, hwu]
    refine ⟨h.durable, ?_, ?_⟩
    · intro e' he'
      obtain rfl := Option.some.inj he'
      exact ⟨g W, rfl, hf _ he⟩
    · intro hn
      cases hn

theorem shadows_update (h : Shadows c w)
    (hf : ∀ db, db.WrittenBy w.contents → (f db).WrittenBy w.contents) :
    Shadows (c.update f) w := by
  rw [← w.update_id]
  exact shadows_change h hf

/-- The record takes up a scan before the scan writes. -/
theorem names_write (h : Shadows c w) : Names k c (w.update (.write k)) := by
  constructor
  · rw [← c.update_id]
    exact shadows_change h fun db hdb => hdb.write
  · rw [Connection.contents_update]
    exact Finset.mem_insert_self _ _

/-- A statement of a scan that has been taken up. -/
theorem names_update (h : Names k c w)
    (hf : ∀ db W, db.WrittenBy W → k ∈ W.index → (f db).WrittenBy W) : Names k (c.update f) w :=
  ⟨shadows_update h.1 fun db hdb => hf db _ hdb h.2, h.2⟩

variable {event : FileEvent} {row : ScanTaskRow} {t : ResultThread} {batchSize : ℕ}

theorem keeps_named (hf : ∀ db W, db.WrittenBy W → k ∈ W.index → (f db).WrittenBy W) :
    Keeps (Names k) (lift (Session.step f : DatabaseSession Bool)) :=
  Keeps.step fun _ _ h => names_update h hf

theorem keeps_upsert : Keeps (Names event.scanId) (lift (IndexWriter.upsert event)) := by
  have hcurrent : Keeps (Names event.scanId)
      (lift (Session.step fun db => db.upsertCurrent event : DatabaseSession Bool)) :=
    keeps_named fun db W hdb hid => hdb.upsertCurrent hid
  have hhistory : Keeps (Names event.scanId)
      (lift (Session.step fun db => db.upsertHistory event : DatabaseSession Bool)) :=
    keeps_named fun db W hdb hid => hdb.upsertHistory hid
  unfold IndexWriter.upsert
  refine Keeps.query.lift_bind fun found => hcurrent.lift_bind fun _ => ?_
  split_ifs
  · exact Keeps.lift_pure ()
  · exact hhistory.lift_bind fun _ => Keeps.lift_pure ()

theorem keeps_step (hf : ∀ db W, db.WrittenBy W → (f db).WrittenBy W) :
    Keeps Shadows (lift (Session.step f : DatabaseSession Bool)) :=
  Keeps.step fun _ _ h => shadows_update h fun db hdb => hf db _ hdb

theorem keeps_if {P : Connection Database → Writers → Prop} {b : Bool} {p : DatabaseSession Unit}
    (hp : Keeps P (lift p)) : Keeps P (lift (if b then p else pure ())) := by
  cases b with
  | true => exact hp
  | false => exact Keeps.lift_pure ()

theorem keeps_transaction {q : RecordedSession Writers Unit} (hq : Keeps Shadows q) :
    Keeps Shadows (transaction recorder.begin recorder.commit q) :=
  Keeps.transaction (fun _ _ => shadows_begin) hq fun _ _ _ => shadows_commit

theorem keeps_markStatements : Keeps Shadows (recorder.markStatements row event) := by
  have hmark : Keeps (Names event.scanId) (lift (Session.step fun db =>
      db.markDeletedHistory (event.deleteTask row) : DatabaseSession Bool)) :=
    keeps_named fun db W hdb hid => hdb.markDeletedHistory hid
  have hdelete : Keeps (Names event.scanId) (lift (Session.step fun db =>
      db.deleteCurrent (event.deleteTask row) : DatabaseSession Bool)) :=
    keeps_named fun db W hdb _ => hdb.deleteCurrent
  have hmarks : Keeps (Names event.scanId) (lift (ResultThread.marks (event.deleteTask row))) :=
    hmark.lift_bind fun _ => keeps_if (b := !(event.deleteTask row).canceled)
      (hdelete.lift_bind fun _ => Keeps.lift_pure ())
  exact Keeps.note_then (fun _ _ h => names_write h) (fun _ _ h => h.1) hmarks

theorem keeps_statements :
    ∀ q ∈ recorder.statements row event,
      Keeps Shadows (transaction recorder.begin recorder.commit q) := by
  intro q hq
  simp only [Recorder.statements, List.mem_cons, List.not_mem_nil, or_false] at hq
  rcases hq with rfl | rfl | rfl | rfl
  · apply keeps_transaction
    refine Keeps.step_note (fun c w h => ?_) fun _ _ h => h
    exact shadows_change h fun db hdb => hdb.upsertTask
  · exact keeps_transaction keeps_markStatements
  · apply keeps_transaction
    apply Keeps.stepEach
    intro kept c w h
    exact shadows_update h fun db hdb => hdb.upsertDiff
  · apply keeps_transaction
    have hcount : ∀ counts, Keeps Shadows (lift (Session.step fun db =>
        db.updateCount event.scanId counts : DatabaseSession Bool)) :=
      fun counts => keeps_step fun db W h => h.updateCount
    exact Keeps.query.lift_bind fun found => (hcount _).lift_bind fun _ => Keeps.lift_pure ()

theorem keeps_commitBatch {P : Connection Database → Writers → Prop}
    (h : ∀ d e w, P (.opened d e) w → P (.closed e) (recorder.commit w)) :
    Keeps P (recorder.commitBatch t) := by
  unfold Recorder.commitBatch
  split_ifs
  · have hk := (Keeps.commit (K := Path) h).bind fun _ =>
      (Keeps.note (K := Path) (f := recorder.batch t.batchCount) fun _ _ h => h).bind fun _ =>
        Keeps.pure { t with batchCount := 0 }
    simp only [bind_assoc] at hk
    exact hk
  · exact Keeps.pure _

/-- The loop keeps the record in line with the connection, whatever fails and wherever it stops. -/
theorem keeps_writeResult : Keeps Shadows (recorder.writeResult batchSize event t) := by
  unfold Recorder.writeResult
  split_ifs
  · apply (keeps_commitBatch fun _ _ _ => shadows_commit).bind
    intro t
    unfold Recorder.finalizeEvent
    refine Keeps.note_then (fun _ _ h => h) (fun _ _ h => h) ?_
    cases t.pendingScanRows.lookup event.scanId with
    | none => exact Keeps.throw _
    | some row =>
      have hfin : Keeps Shadows (recorder.finalizeScan (row.withRoot event.path) event) := by
        apply Keeps.attempt
        apply Keeps.inTurn
        intro q hq
        obtain ⟨p, hp, rfl⟩ := List.mem_map.mp hq
        exact keeps_statements p hp
      exact hfin.bind fun _ => Keeps.pure _
  · have hbegin : Keeps Shadows (recorder.beginBatch t) := by
      unfold Recorder.beginBatch
      split_ifs
      · exact Keeps.begin fun _ _ => shadows_begin
      · exact Keeps.pure ()
    apply hbegin.bind
    intro _
    have htake : ∀ c w, Shadows c w → Names event.scanId c (recorder.upsert event w) :=
      fun _ _ h => names_write h
    refine Keeps.note_then htake (fun _ _ h => h.1) ?_
    apply keeps_upsert.bind
    intro _
    dsimp only
    split_ifs
    · exact keeps_commitBatch fun _ _ _ => names_commit
    · exact Keeps.pure _

end Writers

/-! ## Processes -/

/-- A process with the tables that it has found, and its result thread until it ends. -/
structure Process where
  loaded : Database
  firstScanId : ScanId
  nextScanId : ScanId
  drawn : Finset ScanId
  thread : Option ResultThread
  connection : Connection Database
  writers : Writers

inductive ProcessAction
  /-- `gen_scan_id` -/
  | draw
  /-- `insert_scan_task` -/
  | register (row : ScanTaskRow)
  /-- the loop for one event, with the outcomes of its calls; the process may stop among them -/
  | write (event : FileEvent) (outcomes : Outcomes Path)
  /-- the end of the loop after the shutdown of the queue -/
  | finish (outcomes : Outcomes Path)
  /-- the process stops, and the next one starts -/
  | restart

namespace Process

/-- `Daemon::run` up to `init_history_scan_id`. -/
def start (db : Database) (W : Written) : Process where
  loaded := db
  firstScanId := (db.getMaxId + 1) % 2 ^ 64
  nextScanId := (db.getMaxId + 1) % 2 ^ 64
  drawn := ∅
  thread := some ⟨0, ∅, db.exportedIds⟩
  connection := .closed db
  writers := .closed W

/-- The process after a session of its result thread. -/
def after (p : Process)
    (r : EStateM.Result Halt (Client Database Path × Writers) ResultThread) : Process :=
  { p with
    thread := match r with
      | .ok t _ => some t
      | .error _ _ => none
    connection := (ended r).1.connection
    writers := (ended r).2 }

def step (batchSize : ℕ) (p : Process) : ProcessAction → Option Process
  | .draw => some { p with
      nextScanId := (p.nextScanId + 1) % 2 ^ 64
      drawn := insert p.nextScanId p.drawn }
  | .register row =>
    if row.scanId ∈ p.drawn then
      some { p with thread := p.thread.map fun t =>
        { t with pendingScanRows := t.pendingScanRows.insert row.scanId row } }
    else none
  | .write event outcomes => do
    let t ← p.thread
    if event.scanId ∈ p.drawn then
      return p.after ((Writers.recorder.writeResult batchSize event t).run
        (⟨outcomes, p.connection⟩, p.writers))
    else none
  | .finish outcomes => do
    let t ← p.thread
    return { p.after
        ((Writers.recorder.commitBatch t).run (⟨outcomes, p.connection⟩, p.writers)) with
      thread := none }
  | .restart => some (start p.connection.durable p.writers.durable)

/-- Processes on one database file, from empty tables on. -/
def system (batchSize : ℕ) : System Process ProcessAction where
  init := start .empty .nothing
  step := step batchSize

/-- The ids that the process draws first are above those of the rows that it has found. -/
structure StartsFresh (p : Process) : Prop where
  history : ∀ path i, (p.loaded.indexHistory.find (path, i)).isSome → uint64 i < p.firstScanId
  current : ∀ path c, p.loaded.indexCurrent.find path = some c → uint64 c.scanId < p.firstScanId

/-- No process stops between the first commit of what a scan has written and the commit of its row,
unless the row of a later scan has been committed. -/
def StopsCovered (p : Process) (a : ProcessAction) : Prop :=
  a = .restart → ∀ id ∈ p.writers.durable.index, ∃ id' ∈ p.writers.durable.rows,
    id ≤ id' ∧ id' < 2 ^ 63

variable {p p' : Process} {batchSize : ℕ} {a : ProcessAction}

theorem stopsCovered_of_ne (ha : a ≠ .restart) : StopsCovered p a := fun h => absurd h ha

theorem startsFresh_start {db : Database} {W : Written} (h : db.WrittenBy W)
    (hcover : ∀ id ∈ W.index, ∃ id' ∈ W.rows, id ≤ id' ∧ id' < 2 ^ 63) :
    (start db W).StartsFresh := by
  have hlt : ∀ id ∈ W.index, uint64 (int64 id) < (db.getMaxId + 1) % 2 ^ 64 := by
    intro id hid
    obtain ⟨id', hrow, hle, hid'⟩ := hcover id hid
    rw [uint64_int64 (hle.trans_lt (hid'.trans (by norm_num)))]
    exact Database.lt_getMaxId h (h.rows id' hrow) hid' hle
  constructor
  · intro path i hs
    obtain ⟨id, hid, rfl⟩ := h.history path i hs
    exact hlt id hid
  · intro path c hc
    obtain ⟨id, hid, hi⟩ := h.current path c hc
    rw [hi]
    exact hlt id hid

/-- The record stays in line with the connection in each step. -/
theorem shadows_step (hs : step batchSize p a = some p')
    (h : Writers.Shadows p.connection p.writers) :
    Writers.Shadows p'.connection p'.writers := by
  cases a with
  | draw =>
    cases hs
    exact h
  | register row =>
    simp only [step] at hs
    split_ifs at hs
    cases hs
    exact h
  | write event outcomes =>
    obtain ⟨t, -, hs⟩ := Option.bind_eq_some_iff.mp hs
    split_ifs at hs
    cases hs
    exact Writers.keeps_writeResult ⟨outcomes, p.connection⟩ p.writers h
  | finish outcomes =>
    obtain ⟨t, -, hs⟩ := Option.bind_eq_some_iff.mp hs
    cases hs
    exact Writers.keeps_commitBatch (fun _ _ _ => Writers.shadows_commit)
      ⟨outcomes, p.connection⟩ p.writers h
  | restart =>
    cases hs
    exact Writers.shadows_closed h.durable

theorem loaded_step (hs : step batchSize p a = some p') (ha : a ≠ .restart) :
    p'.loaded = p.loaded ∧ p'.firstScanId = p.firstScanId := by
  cases a with
  | draw =>
    cases hs
    exact ⟨rfl, rfl⟩
  | register row =>
    simp only [step] at hs
    split_ifs at hs
    cases hs
    exact ⟨rfl, rfl⟩
  | write event outcomes =>
    obtain ⟨t, -, hs⟩ := Option.bind_eq_some_iff.mp hs
    split_ifs at hs
    cases hs
    exact ⟨rfl, rfl⟩
  | finish outcomes =>
    obtain ⟨t, -, hs⟩ := Option.bind_eq_some_iff.mp hs
    cases hs
    exact ⟨rfl, rfl⟩
  | restart => exact absurd rfl ha

/-- In every run in which no process stops while a scan has written and has no row, unless a later
scan has one, every process starts with ids of its own. -/
theorem starts_fresh (h : (system batchSize).Reach StopsCovered p) : p.StartsFresh := by
  have hboth : Writers.Shadows p.connection p.writers ∧ p.StartsFresh := by
    apply h.invariant
    · refine ⟨Writers.shadows_closed Database.writtenBy_empty, ?_⟩
      apply startsFresh_start Database.writtenBy_empty
      intro id hid
      cases hid
    · intro p a p' _ hok hs hp
      refine ⟨shadows_step hs hp.1, ?_⟩
      by_cases ha : a = .restart
      · subst ha
        cases hs
        exact startsFresh_start hp.1.durable (hok rfl)
      · obtain ⟨hl, hf⟩ := loaded_step hs ha
        constructor
        · rw [hl, hf]
          exact hp.2.history
        · rw [hl, hf]
          exact hp.2.current
  exact hboth.2

/-! A process that stops when the first batch of its scan is committed. -/

def firstEvent : FileEvent where
  scanId := 1
  modtime := 5
  size := 4096
  err := .ok
  path := ['/', 'a']
  nodeType := .dir
  endSignal := ⟨false, false⟩

/-- The process after its first batch. -/
def stored : Process where
  loaded := .empty
  firstScanId := 1
  nextScanId := 2
  drawn := {1}
  thread := some ⟨0, ∅, ∅⟩
  connection := .closed (Database.empty.upsert firstEvent)
  writers := .closed ⟨{1}, ∅⟩

theorem write_firstEvent : (Writers.recorder.writeResult 1 firstEvent ⟨0, ∅, ∅⟩).run
    (.flawless (.closed .empty), .closed .nothing) = .ok ⟨0, ∅, ∅⟩
      (.flawless (.closed (Database.empty.upsert firstEvent)), .closed ⟨{1}, ∅⟩) := by
  have hupsert : (IndexWriter.upsert firstEvent).run (.flawless (.opened .empty .empty)) =
      .ok () (.flawless (.opened .empty (Database.empty.upsert firstEvent))) :=
    IndexWriter.run_upsert_flawless
  have hlift := run_lift_ok
    (r := Writers.recorder.upsert firstEvent (.opened .nothing .nothing)) hupsert
  have hbegin :
      (Writers.recorder.beginBatch ⟨0, ∅, ∅⟩).run (.flawless (.closed .empty), .closed .nothing) =
      .ok () (.flawless (.opened .empty .empty), .opened .nothing .nothing) := rfl
  have hs : firstEvent.endSignal.isSentinel = false := rfl
  simp only [Recorder.writeResult, hs, Bool.false_eq_true, if_false, EStateM.run_bind, hbegin,
    run_note, hlift]
  rfl

theorem reach_stored : (system 1).Reach StopsCovered stored := by
  have hdraw : (system 1).step (system 1).init .draw =
      some { (system 1).init with nextScanId := 2, drawn := {1} } := rfl
  refine .step (a := .write firstEvent .flawless)
    (.step (a := .draw) .init (stopsCovered_of_ne (by simp)) hdraw)
    (stopsCovered_of_ne (by simp)) ?_
  have hafter : ∀ r, r = EStateM.Result.ok ⟨0, ∅, ∅⟩
      (.flawless (.closed (Database.empty.upsert firstEvent)), .closed ⟨{1}, ∅⟩) →
      some (after { (system 1).init with nextScanId := 2, drawn := {1} } r) = some stored := by
    rintro r rfl
    rfl
  exact hafter _ write_firstEvent

/-- The next process draws the id 1 again, under which the index has a row. -/
theorem starts_stale : ∃ p : Process, (system 1).Reachable p ∧ ¬p.StartsFresh := by
  have hrestart : (system 1).step stored .restart =
      some (start (Database.empty.upsert firstEvent) ⟨{1}, ∅⟩) := rfl
  refine ⟨_, .step reach_stored.reachable trivial hrestart, ?_⟩
  intro h
  have hcur : (Database.empty.upsert firstEvent).indexCurrent.find ['/', 'a'] =
      some ⟨firstEvent.row, int64 (1 : ℕ)⟩ := by
    rw [Database.find_current_upsert]
    rfl
  have hmax : (Database.empty.upsert firstEvent).getMaxId = 0 := by
    rw [Database.getMaxId, dif_neg]
    rw [Database.scanTask_upsert]
    exact Finset.not_nonempty_empty
  have hlt : uint64 (int64 (1 : ℕ)) < ((Database.empty.upsert firstEvent).getMaxId + 1) % 2 ^ 64 :=
    h.current _ _ hcur
  rw [uint64_int64 (by norm_num), hmax] at hlt
  exact absurd hlt (by decide)

/-! The same scan with its sentinel. -/

def firstRow : ScanTaskRow := ⟨1, 0, 0, ['/', 'a'], .done⟩

def firstEnd : FileEvent := ⟨1, 0, 0, .ok, ['/', 'a'], .unknown, ⟨true, false⟩⟩

/-- The process after the finalisation. -/
def finalized : Process where
  loaded := .empty
  firstScanId := 1
  nextScanId := 2
  drawn := {1}
  thread := some ⟨0, ((∅ : ScanMap ScanTaskRow).insert 1 firstRow).erase 1, {1}⟩
  connection := .closed ((Database.empty.upsert firstEvent).finalize firstRow firstEnd)
  writers := .closed ⟨{1}, {1}⟩

theorem write_firstEnd :
    (Writers.recorder.writeResult 1 firstEnd
        ⟨0, (∅ : ScanMap ScanTaskRow).insert 1 firstRow, ∅⟩).run
      (.flawless (.closed (Database.empty.upsert firstEvent)), .closed ⟨{1}, ∅⟩) =
        .ok ⟨0, ((∅ : ScanMap ScanTaskRow).insert 1 firstRow).erase 1, {1}⟩
          (.flawless (.closed ((Database.empty.upsert firstEvent).finalize firstRow firstEnd)),
            .closed ⟨{1}, {1}⟩) := by
  have hs : firstEnd.endSignal.isSentinel = true := rfl
  have hrow :
      ((∅ : ScanMap ScanTaskRow).insert 1 firstRow).lookup firstEnd.scanId = some firstRow :=
    AList.lookup_insert _
  have hroot : firstRow.withRoot firstEnd.path = firstRow := rfl
  simp only [Recorder.writeResult, hs, if_true, EStateM.run_bind, Recorder.commitBatch,
    Nat.lt_irrefl, gt_iff_lt, if_false, EStateM.run_pure, Recorder.finalizeEvent, run_note, hrow,
    hroot, Recorder.run_finalizeScan_flawless]
  rfl

theorem reach_finalized : (system 1).Reach StopsCovered finalized := by
  have hregister : (system 1).step stored (.register firstRow) = some { stored with
      thread := some ⟨0, (∅ : ScanMap ScanTaskRow).insert 1 firstRow, ∅⟩ } := rfl
  refine .step (a := .write firstEnd .flawless)
    (.step (a := .register firstRow) reach_stored (stopsCovered_of_ne (by simp)) hregister)
    (stopsCovered_of_ne (by simp)) ?_
  have hafter : ∀ r, r = EStateM.Result.ok
      ⟨0, ((∅ : ScanMap ScanTaskRow).insert 1 firstRow).erase 1, {1}⟩
        (.flawless (.closed ((Database.empty.upsert firstEvent).finalize firstRow firstEnd)),
          .closed ⟨{1}, {1}⟩) →
      some (after { stored with
        thread := some ⟨0, (∅ : ScanMap ScanTaskRow).insert 1 firstRow, ∅⟩ } r) =
          some finalized := by
    rintro r rfl
    rfl
  exact hafter _ write_firstEnd

/-- The next process draws from 2 on. -/
theorem starts_fresh_finalized :
    (start ((Database.empty.upsert firstEvent).finalize firstRow firstEnd)
      ⟨{1}, {1}⟩).StartsFresh := by
  have hrestart : (system 1).step finalized .restart =
      some (start ((Database.empty.upsert firstEvent).finalize firstRow firstEnd) ⟨{1}, {1}⟩) :=
    rfl
  refine starts_fresh (.step reach_finalized ?_ hrestart)
  rintro - id hid
  exact ⟨id, hid, le_rfl, (Finset.mem_singleton.mp hid).trans_lt (by norm_num)⟩

end Process

end ScanDaemon
