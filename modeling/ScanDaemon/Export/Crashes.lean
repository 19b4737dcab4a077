import ScanDaemon.Export.Finalize
import ScanDaemon.Export.Recording
import ScanDaemon.Library.Crash

/-! # A process that stops while it writes

The events are committed in batches, and a finalisation in four transactions.
Wherever the process stops, the tables are those after a first part of the
events: what is missing is the open batch, or the rest of one finalisation.
-/

namespace ScanDaemon

open Relational TracedSession Connection

namespace Database

/-- What the transactions of `finalize_scan` do to the tables, in order. -/
def finalizations (row : ScanTaskRow) (event : FileEvent) : List (Database → Database) :=
  [fun db => db.upsertTask row, fun db => db.markDeleted (event.deleteTask row),
    findScanDiff event.scanId, fun db => db.upsertCount event.scanId]

/-- The transactions of an event, which only a sentinel with a row has. -/
def finalizing (rows : ScanMap ScanTaskRow) (event : FileEvent) : List (Database → Database) :=
  if event.endSignal.isSentinel then
    match rows.lookup event.scanId with
    | some row => finalizations (row.withRoot event.path) event
    | none => []
  else []

/-- The tables after the first `n` events and the first `k` transactions of the next one. -/
def storedUpTo (rows : ScanMap ScanTaskRow) (events : List FileEvent) (n k : ℕ) (db : Database) :
    Database :=
  ((events[n]?.elim [] (finalizing rows)).take k).foldl (fun d f => f d)
    ((events.take n).foldl (store rows) db)

end Database

/-- The events that the loop takes up are counted. -/
def countingRecorder : Recorder ℕ where
  begin := id
  commit := id
  upsert _ m := m + 1
  batch _ := id
  finalize _ m := m + 1
  insertRow _ := id
  mark _ := id

/-- How far the tables are behind when `m` events have been taken up: the first `n` of them are
stored, and `k` transactions of the next one. -/
structure Behind (batchSize : ℕ) (events : List FileEvent) (n k m : ℕ) : Prop where
  stored : n ≤ m
  taken : m ≤ events.length
  batch : m ≤ n + max 1 batchSize
  transactions : k < 4
  /-- a finalisation is under way only for the last event that was taken up -/
  underWay : 0 < k → m = n + 1
  /-- no sentinel is missing, but for the one whose finalisation is under way -/
  sentinel : ∀ ev ∈ (events.take m).drop n, ev.endSignal.isSentinel = true → m = n + 1

/-- The tables that a process leaves when it stops. -/
def LeftBehind (batchSize : ℕ) (rows : ScanMap ScanTaskRow) (events : List FileEvent)
    (db d : Database) (m : ℕ) : Prop :=
  ∃ n k, d = db.storedUpTo rows events n k ∧ Behind batchSize events n k m

section Left

variable {batchSize : ℕ} {rows : ScanMap ScanTaskRow} {pre batch events : List FileEvent}
  {db : Database} {event : FileEvent} {row : ScanTaskRow}

/-- The events of the open batch are missing. -/
theorem leftBehind_batch (hplain : ∀ ev ∈ batch, ev.endSignal.isSentinel = false)
    (hlen : batch.length ≤ max 1 batchSize) :
    LeftBehind batchSize rows (pre ++ batch ++ events) db (pre.foldl (Database.store rows) db)
      (pre.length + batch.length) := by
  refine ⟨pre.length, 0, ?_, ?_⟩
  · rw [Database.storedUpTo, List.append_assoc, List.take_left]
    rfl
  · constructor
    · omega
    · simp
    · omega
    · omega
    · omega
    · intro ev hev hs
      rw [← List.length_append, List.take_left, List.drop_left] at hev
      rw [hplain ev hev] at hs
      cases hs

/-- The finalisation of the last event is under way. -/
theorem leftBehind_finalize (hs : event.endSignal.isSentinel = true)
    (hrow : rows.lookup event.scanId = some row) {k : ℕ} (hk : k < 4) :
    LeftBehind batchSize rows (pre ++ event :: events) db
      (((Database.finalizations (row.withRoot event.path) event).take k).foldl (fun d f => f d)
        (pre.foldl (Database.store rows) db)) (pre.length + 1) := by
  refine ⟨pre.length, k, ?_, ?_⟩
  · have hfin : Database.finalizing rows event =
        Database.finalizations (row.withRoot event.path) event := by
      simp [Database.finalizing, hs, hrow]
    rw [Database.storedUpTo, List.getElem?_append_right le_rfl, Nat.sub_self, List.take_left]
    simp [hfin]
  · constructor
    · omega
    · simp
    · omega
    · exact hk
    · exact fun _ => rfl
    · exact fun _ _ _ => rfl

end Left

/-! ## The scans that the next process finds exported -/

namespace Database

variable {rows : ScanMap ScanTaskRow} {events : List FileEvent} {db : Database} {event : FileEvent}
  {row : ScanTaskRow} {id : ScanId} {n k : ℕ}

theorem exportedIds_upsertTask (hid : row.scanId < 2 ^ 64) :
    (db.upsertTask row).exportedIds = insert row.scanId db.exportedIds := by
  rw [exportedIds, upsertTask, Table.keys_insertRow, Finset.image_insert, uint64_int64 hid,
    exportedIds]

theorem exportedIds_upsertCount : (db.upsertCount id).exportedIds = db.exportedIds := by
  rw [exportedIds, upsertCount, updateCount, Table.keys_modify, exportedIds]

theorem exportedIds_markDeleted {info : DeleteTask} :
    (db.markDeleted info).exportedIds = db.exportedIds := by
  rw [exportedIds, scanTask_markDeleted, exportedIds]

theorem exportedIds_upsert : (db.upsert event).exportedIds = db.exportedIds := by
  rw [exportedIds, scanTask_upsert, exportedIds]

/-- The first transaction enters the scan. -/
theorem exportedIds_finalizations (hid : row.scanId < 2 ^ 64) :
    (((finalizations row event).take k).foldl (fun d f => f d) db).exportedIds =
      if 0 < k then insert row.scanId db.exportedIds else db.exportedIds := by
  have hdiff : ∀ d : Database, (d.findScanDiff event.scanId).exportedIds = d.exportedIds :=
    fun _ => rfl
  rcases k with _ | _ | _ | _ | k <;>
    simp [finalizations, exportedIds_upsertTask hid, exportedIds_upsertCount,
      exportedIds_markDeleted, hdiff]

/-- The rows that a process keeps are those of scans with ids of 64 bits. -/
structure RowsNamed (rows : ScanMap ScanTaskRow) : Prop where
  named : ∀ id row, rows.lookup id = some row → row.scanId = id
  below : ∀ id row, rows.lookup id = some row → id < 2 ^ 64

theorem mem_exportedIds_finalizing (h : RowsNamed rows)
    (hreg : event.endSignal.isSentinel = true → (rows.lookup event.scanId).isSome) :
    id ∈ (((finalizing rows event).take k).foldl (fun d f => f d) db).exportedIds ↔
      id ∈ db.exportedIds ∨ (0 < k ∧ event.endSignal.isSentinel = true ∧ event.scanId = id) := by
  unfold finalizing
  cases hs : event.endSignal.isSentinel with
  | false => simp
  | true =>
    obtain ⟨row, hrow⟩ := Option.isSome_iff_exists.mp (hreg hs)
    have hname : (row.withRoot event.path).scanId = event.scanId := by
      rw [ScanTaskRow.withRoot_scanId]
      exact h.named event.scanId row hrow
    have hid : (row.withRoot event.path).scanId < 2 ^ 64 := by
      rw [hname]
      exact h.below _ _ hrow
    simp only [if_true, hrow, exportedIds_finalizations hid, hname]
    split_ifs with hk
    · simp [hk, or_comm, eq_comm]
    · simp [hk]

theorem store_eq_finalizing : db.store rows event =
    if event.endSignal.isSentinel then
      ((finalizing rows event).take 4).foldl (fun d f => f d) db
    else db.upsert event := by
  unfold store finalizing
  cases event.endSignal.isSentinel with
  | false => rfl
  | true =>
    simp only [if_true]
    cases rows.lookup event.scanId with
    | none => rfl
    | some row => rfl

theorem mem_exportedIds_foldl (h : RowsNamed rows)
    (hreg : ∀ ev ∈ events, ev.endSignal.isSentinel = true → (rows.lookup ev.scanId).isSome) :
    id ∈ (events.foldl (store rows) db).exportedIds ↔ id ∈ db.exportedIds ∨
      ∃ ev ∈ events, ev.endSignal.isSentinel = true ∧ ev.scanId = id := by
  induction events generalizing db with
  | nil => simp
  | cons ev events ih =>
    have hstore : id ∈ (db.store rows ev).exportedIds ↔ id ∈ db.exportedIds ∨
        (ev.endSignal.isSentinel = true ∧ ev.scanId = id) := by
      rw [store_eq_finalizing]
      split_ifs with hs
      · rw [mem_exportedIds_finalizing h fun _ => hreg ev List.mem_cons_self hs]
        simp
      · rw [exportedIds_upsert]
        simp [hs]
    rw [List.foldl_cons, ih fun x hx => hreg x (List.mem_cons_of_mem _ hx), hstore, or_assoc]
    simp

theorem mem_exportedIds_storedUpTo (h : RowsNamed rows)
    (hreg : ∀ ev ∈ events, ev.endSignal.isSentinel = true → (rows.lookup ev.scanId).isSome) :
    id ∈ (db.storedUpTo rows events n k).exportedIds ↔ id ∈ db.exportedIds ∨
      ∃ ev ∈ events.take (n + min k 1), ev.endSignal.isSentinel = true ∧ ev.scanId = id := by
  have hfirst : id ∈ ((events.take n).foldl (store rows) db).exportedIds ↔ id ∈ db.exportedIds ∨
      ∃ ev ∈ events.take n, ev.endSignal.isSentinel = true ∧ ev.scanId = id :=
    mem_exportedIds_foldl h fun ev hev => hreg ev (List.mem_of_mem_take hev)
  unfold storedUpTo
  cases hn : events[n]? with
  | none =>
    have hall : events.take (n + min k 1) = events.take n := by
      rw [List.getElem?_eq_none_iff] at hn
      rw [List.take_of_length_le (by omega), List.take_of_length_le hn]
    rw [hall]
    simpa using hfirst
  | some ev =>
    have hev : ev ∈ events := List.mem_of_getElem? hn
    simp only [Option.elim_some]
    rw [mem_exportedIds_finalizing h (hreg ev hev), hfirst]
    rcases Nat.eq_zero_or_pos k with rfl | hk
    · simp
    · have hmin : min k 1 = 1 := by omega
      rw [hmin, List.take_add_one, hn]
      simp only [Option.toList_some, List.mem_append, List.mem_singleton]
      constructor
      · rintro ((hd | ⟨x, hx, hxs⟩) | ⟨-, hs⟩)
        · exact .inl hd
        · exact .inr ⟨x, .inl hx, hxs⟩
        · exact .inr ⟨ev, .inr rfl, hs⟩
      · rintro (hd | ⟨x, hx | rfl, hxs⟩)
        · exact .inl (.inl hd)
        · exact .inl (.inr ⟨x, hx, hxs⟩)
        · exact .inr ⟨hk, hxs⟩

end Database

namespace ResultThread

variable {R : Database → ℕ → Prop} {m : ℕ} {d e : Database} {t : ResultThread} {event : FileEvent}
  {row : ScanTaskRow}

theorem endures_commitBatch (hR : R d m) :
    Endures R (fun t' c m' => t' = { t with batchCount := 0 } ∧ c = closed e ∧ m' = m)
      (batch t.batchCount d e) m (countingRecorder.commitBatch t) := by
  unfold Recorder.commitBatch batch
  by_cases hn : t.batchCount = 0
  · rw [if_pos hn, if_neg (by omega)]
    exact Endures.pure ⟨rfl, rfl, rfl⟩
  · rw [if_neg hn, if_pos (by omega)]
    apply (Endures.commit (Q := fun _ c m' => c = closed e ∧ m' = m) hR ⟨rfl, rfl⟩).bind
    rintro - _ _ ⟨rfl, rfl⟩
    exact Endures.pure ⟨rfl, rfl, rfl⟩

theorem endures_beginBatch (hR : R d m) (hopen : t.batchCount = 0 → d = e) :
    Endures R (fun _ c m' => c = opened d e ∧ m' = m) (batch t.batchCount d e) m
      (countingRecorder.beginBatch t) := by
  unfold Recorder.beginBatch batch
  by_cases hn : t.batchCount = 0
  · obtain rfl := hopen hn
    rw [if_pos hn, if_pos hn]
    apply (Endures.begin (Q := fun _ c m' => c = opened d d ∧ m' = m) hR ⟨rfl, rfl⟩).bind
    rintro - _ _ ⟨rfl, rfl⟩
    exact Endures.pure ⟨rfl, rfl⟩
  · rw [if_neg hn, if_neg hn]
    exact Endures.pure ⟨rfl, rfl⟩

/-- A statement in the open transaction. -/
theorem endures_step (hR : R d m) {f : Database → Database} :
    Endures R (fun _ c m' => c = opened d (f e) ∧ m' = m) (opened d e) m
      (lift (Session.step f : DatabaseSession Bool)) := Endures.step hR ⟨rfl, rfl⟩

theorem endures_query (hR : R d m) :
    Endures R (fun found c m' => found = some e ∧ c = opened d e ∧ m' = m) (opened d e) m
      (lift (Session.query : DatabaseSession (Option Database))) :=
  Endures.query hR ⟨rfl, rfl, rfl⟩

theorem endures_upsert (hR : R d m) :
    Endures R (fun _ c m' => c = opened d (e.upsert event) ∧ m' = m) (opened d e) m
      (lift (IndexWriter.upsert event)) := by
  unfold IndexWriter.upsert Database.upsert
  rw [lift_bind]
  apply (endures_query hR).bind
  rintro _ _ m ⟨rfl, rfl, rfl⟩
  rw [lift_bind]
  apply (endures_step hR).bind
  rintro _ _ m ⟨rfl, rfl⟩
  simp only [Option.map_some, Option.getD_some]
  split_ifs
  · exact Endures.pure ⟨rfl, rfl⟩
  · rw [lift_bind]
    apply (endures_step hR).bind
    rintro _ _ m ⟨rfl, rfl⟩
    exact Endures.pure ⟨rfl, rfl⟩

theorem endures_transaction {q : RecordedSession ℕ Unit} {f : Database → Database} (hR : R d m)
    (hq : Endures R (fun _ c m' => c = opened d (f d) ∧ m' = m) (opened d d) m q) :
    Endures R (fun _ c m' => c = closed (f d) ∧ m' = m) (closed d) m
      (transaction id id q) := by
  apply Endures.transaction (f := f) hR
  apply hq.mono fun _ _ h => h
  rintro _ _ m ⟨rfl, rfl⟩
  exact ⟨rfl, hR, rfl, rfl⟩

theorem endures_markDeleted {info : DeleteTask} (hR : R d m) :
    Endures R (fun _ c m' => c = opened d (e.markDeleted info) ∧ m' = m) (opened d e) m
      (lift (marks info)) := by
  unfold Database.markDeleted marks
  rw [lift_bind]
  apply (endures_step hR).bind
  rintro _ _ m ⟨rfl, rfl⟩
  cases info.canceled with
  | true => exact Endures.pure ⟨rfl, rfl⟩
  | false =>
    simp only [Bool.not_false, if_true, Bool.false_eq_true, if_false]
    rw [lift_bind]
    apply (endures_step hR).bind
    rintro _ _ m ⟨rfl, rfl⟩
    exact Endures.pure ⟨rfl, rfl⟩

theorem endures_upsertCount {id : ScanId} (hR : R d m) :
    Endures R (fun _ c m' => c = opened d (e.upsertCount id) ∧ m' = m) (opened d e) m
      (lift (counts id)) := by
  unfold Database.upsertCount counts
  rw [lift_bind]
  apply (endures_query hR).bind
  rintro _ _ m ⟨rfl, rfl, rfl⟩
  rw [lift_bind]
  apply (endures_step hR).bind
  rintro _ _ m ⟨rfl, rfl⟩
  exact Endures.pure ⟨rfl, rfl⟩

/-- Each transaction of a finalisation stores its change as a whole or not at all. -/
theorem endures_transactions : List.Forall₂ (fun q f => ∀ d, R d m →
    Endures R (fun _ c m' => c = closed (f d) ∧ m' = m) (closed d) m q)
    ((countingRecorder.statements row event).map (transaction id id))
    (Database.finalizations row event) := by
  simp only [Recorder.statements, List.map_cons, List.map_nil, Database.finalizations]
  refine .cons ?_ (.cons ?_ (.cons ?_ (.cons ?_ .nil)))
  · intro d hR
    apply endures_transaction hR
    apply (endures_step hR).bind
    rintro done _ m ⟨rfl, rfl⟩
    cases done <;> exact Endures.note ⟨rfl, rfl⟩
  · intro d hR
    apply endures_transaction hR
    apply (Endures.note (Q := fun _ c m' => c = opened d d ∧ m' = m) ⟨rfl, rfl⟩).bind
    rintro - _ m ⟨rfl, rfl⟩
    exact endures_markDeleted hR
  · intro d hR
    apply endures_transaction hR
    apply Endures.stepEach hR
    rw [Database.upsertDiff_true]
    exact ⟨rfl, rfl⟩
  · intro d hR
    apply endures_transaction hR
    exact endures_upsertCount hR

theorem endures_finalizeScan
    (hR : ∀ k < 4, R (((Database.finalizations row event).take k).foldl (fun d f => f d) d) m) :
    Endures R (fun ok c m' => ok = true ∧ c = closed (d.finalize row event) ∧ m' = m) (closed d) m
      (countingRecorder.finalizeScan row event) := by
  apply Endures.attempt
  apply (Endures.inTurn endures_transactions hR).mono fun _ _ h => h
  rintro - _ m ⟨rfl, rfl⟩
  exact ⟨rfl, rfl, rfl⟩

/-! ## The loop -/

section Loop

variable {batchSize : ℕ} {rows : ScanMap ScanTaskRow} {pre events all : List FileEvent}
  {db : Database}

/-- At the head of the loop the events `pre` are stored, and those of `pending` are in the open
batch. -/
structure AtHead (batchSize : ℕ) (rows : ScanMap ScanTaskRow) (db : Database)
    (pre pending events : List FileEvent) (t : ResultThread) (c : Connection Database) (m : ℕ) :
    Prop where
  count : t.batchCount = pending.length
  below : pending.length < max 1 batchSize
  plain : ∀ ev ∈ pending, ev.endSignal.isSentinel = false
  found : ∀ ev ∈ events, ev.endSignal.isSentinel = true →
    ∃ row, rows.lookup ev.scanId = some row ∧ t.pendingScanRows.lookup ev.scanId = some row
  once : events.Pairwise fun a b => a.endSignal.isSentinel = true →
    b.endSignal.isSentinel = true → a.scanId ≠ b.scanId
  connection : c = batch t.batchCount (pre.foldl (Database.store rows) db)
    ((pre ++ pending).foldl (Database.store rows) db)
  taken : m = pre.length + pending.length

/-- The loop is at its head, with some of the events of `done` in the open batch. -/
def Head (batchSize : ℕ) (rows : ScanMap ScanTaskRow) (db : Database)
    (done events : List FileEvent) (t : ResultThread) (c : Connection Database) (m : ℕ) : Prop :=
  ∃ pre pending, done = pre ++ pending ∧ AtHead batchSize rows db pre pending events t c m

variable {pending done : List FileEvent} {c : Connection Database}

/-- One pass of the loop for a sentinel. -/
theorem endures_sentinel (h : AtHead batchSize rows db pre pending (event :: events) t c m)
    (hs : event.endSignal.isSentinel = true) :
    Endures (LeftBehind batchSize rows (pre ++ pending ++ event :: events) db)
      (Head batchSize rows db (pre ++ pending ++ [event]) events) c m
      (countingRecorder.writeResult batchSize event t) := by
  obtain ⟨row, hrow, hfound⟩ := h.found event List.mem_cons_self hs
  have hfin : ((pre ++ pending ++ [event]).foldl (Database.store rows) db) =
      ((pre ++ pending).foldl (Database.store rows) db).finalize (row.withRoot event.path)
        event := by
    rw [List.foldl_append (l := pre ++ pending), List.foldl_cons, List.foldl_nil,
      Database.store, if_pos hs, hrow]
  obtain rfl := h.connection
  obtain rfl := h.taken
  rw [Recorder.writeResult, if_pos hs]
  apply (endures_commitBatch (leftBehind_batch h.plain h.below.le)).bind
  rintro _ _ _ ⟨rfl, rfl, rfl⟩
  unfold Recorder.finalizeEvent
  apply (Endures.note (Q := fun _ c m =>
    c = closed ((pre ++ pending).foldl (Database.store rows) db) ∧
      m = (pre ++ pending).length + 1) ⟨rfl, by rw [List.length_append]; rfl⟩).bind
  rintro - _ _ ⟨rfl, rfl⟩
  simp only [hfound]
  have hleft : ∀ k < 4, LeftBehind batchSize rows (pre ++ pending ++ event :: events) db
      (((Database.finalizations (row.withRoot event.path) event).take k).foldl (fun d f => f d)
        ((pre ++ pending).foldl (Database.store rows) db)) ((pre ++ pending).length + 1) :=
    fun k hk => leftBehind_finalize hs hrow hk
  apply (endures_finalizeScan hleft).bind
  rintro _ _ _ ⟨rfl, rfl, rfl⟩
  apply Endures.pure
  refine ⟨pre ++ pending ++ [event], [], (List.append_nil _).symm, ?_⟩
  obtain ⟨hfirst, honce⟩ := List.pairwise_cons.mp h.once
  constructor
  · rfl
  · simp
  · simp
  · intro ev hev hevs
    obtain ⟨row', hrow', hfound'⟩ := h.found ev (List.mem_cons_of_mem _ hev) hevs
    refine ⟨row', hrow', ?_⟩
    rw [ScanMap.lookup_erase, if_neg (hfirst ev hev hs hevs).symm]
    exact hfound'
  · exact honce
  · rw [List.append_nil, hfin]
    rfl
  · simp [Nat.add_assoc]

/-- One pass of the loop for an event. -/
theorem endures_event (h : AtHead batchSize rows db pre pending (event :: events) t c m)
    (hs : event.endSignal.isSentinel = false) :
    Endures (LeftBehind batchSize rows (pre ++ pending ++ event :: events) db)
      (Head batchSize rows db (pre ++ pending ++ [event]) events) c m
      (countingRecorder.writeResult batchSize event t) := by
  have hup : ((pre ++ (pending ++ [event])).foldl (Database.store rows) db) =
      ((pre ++ pending).foldl (Database.store rows) db).upsert event := by
    rw [← List.append_assoc, List.foldl_append (l := pre ++ pending), List.foldl_cons,
      List.foldl_nil, Database.store, if_neg (by simp [hs])]
  have hplain : ∀ ev ∈ pending ++ [event], ev.endSignal.isSentinel = false := by
    intro ev hev
    rcases List.mem_append.mp hev with hev | hev
    · exact h.plain ev hev
    · rw [List.mem_singleton.mp hev]
      exact hs
  have hlen : (pending ++ [event]).length ≤ max 1 batchSize := by
    rw [List.length_append]
    exact h.below
  have hbefore : LeftBehind batchSize rows (pre ++ pending ++ event :: events) db
      (pre.foldl (Database.store rows) db) (pre.length + pending.length) :=
    leftBehind_batch h.plain h.below.le
  have hafter : LeftBehind batchSize rows (pre ++ pending ++ event :: events) db
      (pre.foldl (Database.store rows) db) (pre.length + (pending ++ [event]).length) := by
    have hassoc : pre ++ pending ++ event :: events = pre ++ (pending ++ [event]) ++ events := by
      simp
    rw [hassoc]
    exact leftBehind_batch hplain hlen
  have hcount : t.batchCount + 1 = (pending ++ [event]).length := by
    rw [List.length_append, h.count]
    rfl
  have hopen : t.batchCount = 0 → pre.foldl (Database.store rows) db =
      (pre ++ pending).foldl (Database.store rows) db := by
    intro hz
    rw [h.count, List.length_eq_zero_iff] at hz
    rw [hz, List.append_nil]
  have honce := (List.pairwise_cons.mp h.once).2
  have hfound := fun ev hev => h.found ev (List.mem_cons_of_mem _ hev)
  obtain rfl := h.connection
  obtain rfl := h.taken
  rw [Recorder.writeResult, if_neg (by simp [hs])]
  apply (endures_beginBatch hbefore hopen).bind
  rintro - _ _ ⟨rfl, rfl⟩
  apply (Endures.note (Q := fun _ c m => c = opened (pre.foldl (Database.store rows) db)
    ((pre ++ pending).foldl (Database.store rows) db) ∧
      m = pre.length + (pending ++ [event]).length)
        ⟨rfl, by rw [List.length_append]; rfl⟩).bind
  rintro - _ _ ⟨rfl, rfl⟩
  apply (endures_upsert hafter).bind
  rintro - _ _ ⟨rfl, rfl⟩
  rw [← hup]
  dsimp only
  split_ifs with hfull
  · apply (endures_commitBatch (t := { t with batchCount := t.batchCount + 1 }) hafter).mono
      fun _ _ h => h
    rintro _ _ _ ⟨rfl, rfl, rfl⟩
    refine ⟨pre ++ (pending ++ [event]), [], by simp, ?_⟩
    constructor
    · rfl
    · simp
    · simp
    · exact hfound
    · exact honce
    · rw [List.append_nil]
      rfl
    · simp
  · apply Endures.pure
    refine ⟨pre, pending ++ [event], by simp, ?_⟩
    constructor
    · exact hcount
    · omega
    · exact hplain
    · exact hfound
    · exact honce
    · rfl
    · rfl

/-- The loop, whose open batch the end of the queue commits. -/
theorem endures_writeResultToDb (h : Head batchSize rows db done events t c m) :
    Endures (LeftBehind batchSize rows (done ++ events) db)
      (fun _ c m => c = closed ((done ++ events).foldl (Database.store rows) db) ∧
        m = (done ++ events).length)
      c m (countingRecorder.writeResultToDb batchSize events t) := by
  induction events generalizing done t c m with
  | nil =>
    obtain ⟨pre, pending, rfl, h⟩ := h
    obtain rfl := h.connection
    obtain rfl := h.taken
    have hleft : LeftBehind batchSize rows (pre ++ pending ++ []) db
        (pre.foldl (Database.store rows) db) (pre.length + pending.length) :=
      leftBehind_batch h.plain h.below.le
    rw [List.append_nil] at hleft ⊢
    apply (endures_commitBatch hleft).mono fun _ _ h => h
    rintro _ _ _ ⟨-, rfl, rfl⟩
    exact ⟨rfl, by rw [List.length_append]⟩
  | cons event events ih =>
    obtain ⟨pre, pending, rfl, h⟩ := h
    have hassoc : pre ++ pending ++ event :: events = pre ++ pending ++ [event] ++ events := by simp
    rw [Recorder.writeResultToDb_cons]
    cases hs : event.endSignal.isSentinel with
    | true =>
      apply (endures_sentinel h hs).bind
      intro t' c' m' h'
      rw [hassoc]
      exact ih h'
    | false =>
      apply (endures_event h hs).bind
      intro t' c' m' h'
      rw [hassoc]
      exact ih h'

/-- Nothing is missing at the end. -/
theorem leftBehind_all : LeftBehind batchSize rows events db
    (events.foldl (Database.store rows) db) events.length := by
  have h : LeftBehind batchSize rows (events ++ [] ++ []) db
      (events.foldl (Database.store rows) db) (events.length + 0) :=
    leftBehind_batch (by simp) (by simp)
  simpa only [List.append_nil, Nat.add_zero] using h

theorem head_start {exported : Finset ScanId} (h : RowsReady rows events) :
    Head batchSize rows db [] events ⟨0, rows, exported⟩ (.closed db) 0 := by
  refine ⟨[], [], rfl, ?_⟩
  constructor
  · rfl
  · simp
  · simp
  · intro ev hev hs
    obtain ⟨row, hrow⟩ := Option.isSome_iff_exists.mp (h.registered ev hev hs)
    exact ⟨row, hrow, hrow⟩
  · exact h.once
  · rfl
  · rfl

end Loop

section Stopped

variable (batchSize : ℕ) (rows : ScanMap ScanTaskRow) (exported : Finset ScanId)
  (events : List FileEvent) (db : Database) (o : Outcomes Path)

/-- The result thread over the events that it pops, with their number. -/
def counted : EStateM.Result Halt (Client Database Path × ℕ) ResultThread :=
  (countingRecorder.writeResultToDb batchSize events ⟨0, rows, exported⟩).run
    (⟨o, .closed db⟩, 0)

theorem forget_counted : forget (counted batchSize rows exported events db o) =
    (writeResultToDb batchSize events ⟨0, rows, exported⟩).run ⟨o, .closed db⟩ :=
  Recorder.traces_writeResultToDb _ _

variable {batchSize rows exported events db o}

theorem leftBehind_counted (ho : o.Steady) (h : RowsReady rows events) :
    LeftBehind batchSize rows events db
      (ended (counted batchSize rows exported events db o)).1.connection.durable
      (ended (counted batchSize rows exported events db o)).2 := by
  have hhead : Head batchSize rows db [] events ⟨0, rows, exported⟩ (.closed db) 0 := head_start h
  have hend := endures_writeResultToDb hhead o ho
  rw [← counted] at hend
  cases hrun : counted batchSize rows exported events db o with
  | ok t' s' =>
    rw [hrun] at hend
    obtain ⟨-, hc, hm⟩ := hend
    rw [ended, hc, hm]
    exact leftBehind_all
  | error halt s' =>
    rw [hrun] at hend
    cases halt with
    | stopped => exact hend
    | threw => exact hend.elim

variable (batchSize rows exported events db o)

/-- Wherever the process stops, the tables hold the first events as a whole, and what is missing
of the others that have been taken up is one open batch or the rest of one finalisation. -/
theorem stops_behind (ho : o.Steady) (h : RowsReady rows events) :
    let final := ended (counted batchSize rows exported events db o)
    -- the events are counted beside what the result thread does
    forget (counted batchSize rows exported events db o) =
      (writeResultToDb batchSize events ⟨0, rows, exported⟩).run ⟨o, .closed db⟩ ∧
    ∃ n k, final.1.connection.durable = db.storedUpTo rows events n k ∧
      Behind batchSize events n k final.2 :=
  ⟨forget_counted _ _ _ _ _ _, leftBehind_counted ho h⟩

/-- After a stop, a scan is found exported when its sentinel is among the events that are stored as
a whole, or when its finalisation had begun: all its events in front of it are stored then. -/
theorem exported_after_stop (ho : o.Steady) (h : RowsReady rows events)
    (hnamed : Database.RowsNamed rows) :
    let final := ended (counted batchSize rows exported events db o)
    ∃ n k, final.1.connection.durable = db.storedUpTo rows events n k ∧
      Behind batchSize events n k final.2 ∧
      ∀ id, id ∈ final.1.connection.durable.exportedIds ↔ id ∈ db.exportedIds ∨
        ∃ ev ∈ events.take (n + min k 1), ev.endSignal.isSentinel = true ∧ ev.scanId = id := by
  intro final
  have hleft : LeftBehind batchSize rows events db final.1.connection.durable final.2 :=
    leftBehind_counted ho h
  obtain ⟨n, k, hd, hbehind⟩ := hleft
  refine ⟨n, k, hd, hbehind, ?_⟩
  intro id
  rw [hd]
  exact Database.mem_exportedIds_storedUpTo hnamed h.registered

end Stopped

/-! A process that stops when the first transaction of a finalisation is committed. -/

def smallEvent : FileEvent where
  scanId := 1
  modtime := 5
  size := 4096
  err := .ok
  path := ['/', 'a']
  nodeType := .dir
  endSignal := ⟨false, false⟩

def smallRows : ScanMap ScanTaskRow := (∅ : ScanMap ScanTaskRow).insert 1 smallRow

/-- Two transactions and their statements succeed. -/
def stopsEarly : Outcomes Path := ⟨List.replicate 4 true, List.replicate 4 true, [], false⟩

theorem steady_stopsEarly : stopsEarly.Steady := by
  constructor
  · intro ok hok
    exact List.eq_of_mem_replicate hok
  · intro ok hok
    exact List.eq_of_mem_replicate hok
  · intro kept hk
    cases hk

theorem rowsReady_small : RowsReady smallRows [smallEvent, smallEnd] := by
  constructor
  · intro ev hev hs
    rcases List.mem_pair.mp hev with rfl | rfl
    · cases hs
    · rw [smallRows, ScanMap.lookup_insert]
      rfl
  · simp [smallEvent]

theorem rowsNamed_small : Database.RowsNamed smallRows := by
  have hone : ∀ id row, smallRows.lookup id = some row → id = 1 ∧ row = smallRow := by
    intro id row hrow
    rw [smallRows, ScanMap.lookup_insert] at hrow
    split_ifs at hrow with hid
    · exact ⟨hid, (Option.some.inj hrow).symm⟩
    · simp at hrow
  constructor
  · intro id row hrow
    obtain ⟨rfl, rfl⟩ := hone id row hrow
    rfl
  · intro id row hrow
    obtain ⟨rfl, rfl⟩ := hone id row hrow
    decide

theorem stops_behind_early :
    let final := ended (counted 1 smallRows ∅ [smallEvent, smallEnd] .empty stopsEarly)
    forget (counted 1 smallRows ∅ [smallEvent, smallEnd] .empty stopsEarly) =
      (writeResultToDb 1 [smallEvent, smallEnd] ⟨0, smallRows, ∅⟩).run
        ⟨stopsEarly, .closed .empty⟩ ∧
    ∃ n k, final.1.connection.durable =
        Database.empty.storedUpTo smallRows [smallEvent, smallEnd] n k ∧
      Behind 1 [smallEvent, smallEnd] n k final.2 :=
  stops_behind 1 smallRows ∅ [smallEvent, smallEnd] .empty stopsEarly steady_stopsEarly
    rowsReady_small

theorem exported_after_stop_early :
    let final := ended (counted 1 smallRows ∅ [smallEvent, smallEnd] .empty stopsEarly)
    ∃ n k, final.1.connection.durable =
        Database.empty.storedUpTo smallRows [smallEvent, smallEnd] n k ∧
      Behind 1 [smallEvent, smallEnd] n k final.2 ∧
      ∀ id, id ∈ final.1.connection.durable.exportedIds ↔ id ∈ Database.empty.exportedIds ∨
        ∃ ev ∈ [smallEvent, smallEnd].take (n + min k 1), ev.endSignal.isSentinel = true ∧
          ev.scanId = id :=
  exported_after_stop 1 smallRows ∅ [smallEvent, smallEnd] .empty stopsEarly steady_stopsEarly
    rowsReady_small rowsNamed_small

end ResultThread

end ScanDaemon
