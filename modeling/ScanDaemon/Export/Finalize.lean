import ScanDaemon.Export.ResultWriter

/-! # What a finalisation leaves behind

The four transactions of `finalize_scan` share the connection of the result
thread. An exception skips the rest of them, and the connection is then usable
unless the exception came from a `COMMIT`.
-/

namespace ScanDaemon

open Relational Session

variable {row : ScanTaskRow} {event : FileEvent} {s s' : Client Database Path} {exported : Bool}

namespace ResultThread

theorem isTransaction_of_mem (row : ScanTaskRow) (event : FileEvent) :
    ∀ p ∈ transactions row event, IsTransaction p := by
  simp only [transactions, List.forall_mem_cons]
  exact ⟨ScanTable.isTransaction_upsert, IndexWriter.isTransaction_markDeleted,
    IndexReader.isTransaction_findScanDiff, ScanTable.isTransaction_upsertCount, by simp⟩

/-- The next `begin_transaction` of `write_result_to_db` does not throw by itself. -/
def GoesOn (c : Connection Database) : Prop :=
  c.working = none ∧ ∃ s : Client Database Path, Session.begin.run (.flawless c) = .ok () s

theorem goesOn_iff {c : Connection Database} : GoesOn c ↔ c.working = none := by
  constructor
  · exact And.left
  · intro hc
    obtain ⟨d, w⟩ := c
    cases hc
    exact ⟨rfl, _, run_begin_flawless⟩

/-- The connection is usable after `finalize_scan` has returned exactly if the first command that
failed, if any, is not a `COMMIT`. -/
theorem finalize_goes_on (hs : s.connection.working = none)
    (h : (finalizeScan row event).run s = .ok exported s') :
    GoesOn s'.connection ↔ ¬CommitFails 4 s.outcomes := by
  have hturn := inTurn_closed_iff (isTransaction_of_mem row event) hs
  rw [goesOn_iff]
  rcases attempt_ok h with ⟨-, hr⟩ | ⟨-, hr⟩
  · rw [hr] at hturn
    exact iff_of_true hturn.1 hturn.2
  · rw [hr] at hturn
    exact hturn

/-- A scan of `/a` that has ended. -/
def smallRow : ScanTaskRow where
  scanId := 1
  startTime := 0
  finishTime := 0
  submitRoot := ['/', 'a']
  endState := .done

def smallEnd : FileEvent where
  scanId := 1
  modtime := 0
  size := 0
  err := .ok
  path := ['/', 'a']
  nodeType := .unknown
  endSignal := ⟨true, false⟩

/-- The second `BEGIN` fails. -/
theorem finalize_goes_on_begin :
    GoesOn (.closed (Database.empty.upsertTask smallRow)) ↔
      ¬CommitFails 4 (⟨[true, true, false], [], [], true⟩ : Outcomes Path) :=
  have h : (finalizeScan smallRow smallEnd).run
      ⟨⟨[true, true, false], [], [], true⟩, .closed .empty⟩ =
      .ok false ⟨⟨[], [], [], true⟩, .closed (Database.empty.upsertTask smallRow)⟩ := rfl
  finalize_goes_on rfl h

/-- The first `COMMIT` fails. -/
theorem finalize_stuck : ∃ s' : Client Database Path,
    (finalizeScan smallRow smallEnd).run ⟨⟨[true, false], [], [], true⟩, .closed .empty⟩ =
      .ok false s' ∧ ¬GoesOn s'.connection := by
  refine ⟨_, rfl, ?_⟩
  rw [goesOn_iff]
  exact Option.some_ne_none _

end ResultThread

end ScanDaemon
