import ScanDaemon.Database.IndexWriter

/-! # The rows that `mark_deleted` touches

The two statements of `mark_deleted` select paths by `submit_root/*`, and the
root is put into the pattern as it is. They select the rows below the root
exactly if the root has no special character.
-/

namespace ScanDaemon

variable {info : DeleteTask} {db : Database} {p : Path} {r : CurrentRow}

namespace DeleteTask

/-- The path is strictly below the root. -/
def Below (info : DeleteTask) (p : Path) : Prop := info.submitRoot ++ ['/'] <+: p

/-- A row of `index_current` that the scan should have visited and did not. -/
structure Unvisited (info : DeleteTask) (db : Database) (p : Path) (r : CurrentRow) : Prop where
  row : db.indexCurrent.find p = some r
  other : r.scanId ≠ int64 info.scanId
  below : info.Below p

/-- The unvisited rows get one new row each in the history, and a complete scan removes them from
`index_current`. Nothing else changes. -/
structure MarksBelow (info : DeleteTask) (db db' : Database) : Prop where
  marked : ∀ p r, info.Unvisited db p r → db.indexHistory.find (p, int64 info.scanId) = none ∧
    db'.indexHistory.find (p, int64 info.scanId) = some (info.mark r)
  history_kept : ∀ p i, (i = int64 info.scanId → ∀ r, ¬info.Unvisited db p r) →
    db'.indexHistory.find (p, i) = db.indexHistory.find (p, i)
  removed : info.canceled = false → ∀ p r, info.Unvisited db p r → db'.indexCurrent.find p = none
  current_kept : ∀ p, (info.canceled = false → ∀ r, ¬info.Unvisited db p r) →
    db'.indexCurrent.find p = db.indexCurrent.find p
  tasks_kept : db'.scanTask = db.scanTask
  diff_kept : db'.scanDiff = db.scanDiff

/-- The pattern selects the rows of other scans below the root and no others. -/
def SelectsBelow (info : DeleteTask) (db : Database) : Prop :=
  ∀ p r, db.indexCurrent.find p = some r → r.scanId ≠ int64 info.scanId →
    (glob (info.submitRoot ++ ['/', '*']) p = true ↔ info.Below p)

/-- A selected row whose key in the history is taken, so that `INSERT ... SELECT` fails. -/
structure Taken (info : DeleteTask) (db : Database) (p : Path) (r : CurrentRow) : Prop where
  row : db.indexCurrent.find p = some r
  stale : info.stale p r = true
  taken : (db.indexHistory.find (p, int64 info.scanId)).isSome

theorem stale_eq_true_iff : info.stale p r = true ↔
    glob (info.submitRoot ++ ['/', '*']) p = true ∧ r.scanId ≠ int64 info.scanId := by
  simp [stale]

theorem SelectsBelow.stale_iff (h : info.SelectsBelow db) (hr : db.indexCurrent.find p = some r) :
    info.stale p r = true ↔ info.Unvisited db p r := by
  rw [stale_eq_true_iff]
  constructor
  · rintro ⟨hg, ho⟩
    exact ⟨hr, ho, (h p r hr ho).mp hg⟩
  · intro hu
    exact ⟨(h p r hr hu.other).mpr hu.below, hu.other⟩

/-- Without a taken key, each selected row gets a row in the history. -/
theorem find_history_of_free (h : ∀ p r, ¬info.Taken db p r) :
    (db.markDeleted info).indexHistory.find (p, int64 info.scanId) =
      (db.indexHistory.find (p, int64 info.scanId)).or
        (((db.indexCurrent.find p).filter (info.stale p)).map info.mark) := by
  apply Database.find_history_markDeleted
  intro p r hr hs
  rw [← Option.not_isSome_iff_eq_none]
  exact fun ht => h p r ⟨hr, hs, ht⟩

theorem find_current_of_kept
    (h : ∀ r, db.indexCurrent.find p = some r → info.canceled = true ∨ info.stale p r = false) :
    (db.markDeleted info).indexCurrent.find p = db.indexCurrent.find p := by
  rw [Database.find_current_markDeleted]
  cases hp : db.indexCurrent.find p with
  | none => rfl
  | some r =>
    rw [Option.filter_some, if_pos]
    rcases h r hp with hc | hs
    · rw [hc, Bool.true_or]
    · rw [hs, Bool.not_false, Bool.or_true]

theorem SelectsBelow.marksBelow (h : info.SelectsBelow db)
    (hfree : ∀ p r, info.Unvisited db p r → db.indexHistory.find (p, int64 info.scanId) = none) :
    info.MarksBelow db (db.markDeleted info) := by
  have hkept : ∀ p, (∀ r, ¬info.Unvisited db p r) →
      ∀ r, db.indexCurrent.find p = some r → info.stale p r = false := by
    intro p hno r hr
    rw [← Bool.not_eq_true, h.stale_iff hr]
    exact hno r
  refine ⟨fun p r hu => ?_, fun p i hno => ?_, fun hc p r hu => ?_, fun p hno => ?_,
    Database.scanTask_markDeleted, Database.scanDiff_markDeleted⟩
  · have hnone := hfree p r hu
    have hnot : ∀ p r, ¬info.Taken db p r := by
      intro p r ht
      have hf := hfree p r ((h.stale_iff ht.row).mp ht.stale)
      simpa [hf] using ht.taken
    refine ⟨hnone, ?_⟩
    rw [find_history_of_free hnot, hnone, hu.row, Option.filter_some,
      if_pos ((h.stale_iff hu.row).mpr hu)]
    rfl
  · rcases eq_or_ne i (int64 info.scanId) with rfl | hi
    · exact Database.find_history_markDeleted_of_fresh (hkept p (hno rfl))
    · exact Database.find_history_markDeleted_of_ne hi
  · rw [Database.find_current_markDeleted, hu.row, Option.filter_some, hc,
      (h.stale_iff hu.row).mpr hu]
    rfl
  · apply find_current_of_kept
    intro r hr
    cases hc : info.canceled with
    | true => exact .inl rfl
    | false => exact .inr (hkept p (hno hc) r hr)

/-- Where a key is taken, the history stays as it is, which is right only when there is nothing to
mark and the rows that are wrongly selected are not removed either. -/
theorem Taken.marksBelow_iff (ht : info.Taken db p r) :
    info.MarksBelow db (db.markDeleted info) ↔
      info.canceled = true ∧ ∀ p r, ¬info.Unvisited db p r := by
  have hsame := Database.indexHistory_markDeleted_of_taken ht.row ht.stale ht.taken
  constructor
  · intro h
    have hno : ∀ p r, ¬info.Unvisited db p r := by
      intro p r hu
      obtain ⟨hnone, hsome⟩ := h.marked p r hu
      rw [hsame, hnone] at hsome
      cases hsome
    refine ⟨Bool.eq_true_of_not_eq_false fun hc => ?_, hno⟩
    have hkept := h.current_kept p fun _ r => hno p r
    rw [Database.find_current_markDeleted, ht.row, Option.filter_some, hc, ht.stale] at hkept
    cases hkept
  · rintro ⟨hc, hno⟩
    refine ⟨fun p r hu => absurd hu (hno p r), fun p i _ => by rw [hsame],
      fun hc' => absurd (hc.symm.trans hc') Bool.false_ne_true.symm, fun p _ => ?_,
      Database.scanTask_markDeleted, Database.scanDiff_markDeleted⟩
    exact find_current_of_kept fun _ _ => .inl hc

theorem MarksBelow.selectsBelow (h : info.MarksBelow db (db.markDeleted info))
    (hnot : ∀ p r, ¬info.Taken db p r) : info.SelectsBelow db := by
  intro p r hr ho
  constructor
  · intro hg
    by_contra hb
    have hs : info.stale p r = true := stale_eq_true_iff.mpr ⟨hg, ho⟩
    have hnone : db.indexHistory.find (p, int64 info.scanId) = none :=
      Option.not_isSome_iff_eq_none.mp fun ht => hnot p r ⟨hr, hs, ht⟩
    have hkept := h.history_kept p (int64 info.scanId) fun _ r hu => hb hu.below
    rw [find_history_of_free hnot, hnone, hr, Option.filter_some, if_pos hs] at hkept
    cases hkept
  · intro hb
    obtain ⟨hnone, hsome⟩ := h.marked p r ⟨hr, ho, hb⟩
    by_contra hg
    have hfresh : ∀ r', db.indexCurrent.find p = some r' → info.stale p r' = false := by
      intro r' _
      rw [← Bool.not_eq_true, stale_eq_true_iff]
      exact fun hs => hg hs.1
    rw [Database.find_history_markDeleted_of_fresh hfresh, hnone] at hsome
    cases hsome

end DeleteTask

/-- The row of an empty file that a scan has found. -/
def fileRow (scanId : ℤ) : CurrentRow := ⟨⟨.file, 0, 0, .alive, [], []⟩, scanId⟩

/-- An index with one file in it. -/
def oneFile (p : Path) (scanId : ℤ) : Database :=
  { Database.empty with indexCurrent := (∅ : Relational.Table _ _).replace p (fileRow scanId) }

open DeleteTask in
/-- `mark_deleted` does to the rows below the root what it should exactly if the pattern selects
these rows and their keys in the history are free (or nothing was to be done, and the statement for
wrongly selected rows fails). For a root this is so whatever the index contains exactly if the root
has no special character. -/
theorem markDeleted_iff (info : DeleteTask) (db : Database) :
    (info.MarksBelow db (db.markDeleted info) ↔
      (info.SelectsBelow db ∧ ∀ p r, info.Unvisited db p r →
        db.indexHistory.find (p, int64 info.scanId) = none) ∨
      (info.canceled = true ∧ (∀ p r, ¬info.Unvisited db p r) ∧ ∃ p r, info.Taken db p r)) ∧
    ((∀ db, (∀ p, db.indexHistory.find (p, int64 info.scanId) = none) →
      info.MarksBelow db (db.markDeleted info)) ↔ ∀ c ∈ info.submitRoot, ¬Glob.IsMeta c) := by
  have hfirst : ∀ db, info.MarksBelow db (db.markDeleted info) ↔
      (info.SelectsBelow db ∧ ∀ p r, info.Unvisited db p r →
        db.indexHistory.find (p, int64 info.scanId) = none) ∨
      (info.canceled = true ∧ (∀ p r, ¬info.Unvisited db p r) ∧ ∃ p r, info.Taken db p r) := by
    intro db
    constructor
    · intro h
      by_cases htaken : ∃ p r, info.Taken db p r
      · obtain ⟨p, r, ht⟩ := htaken
        obtain ⟨hc, hno⟩ := ht.marksBelow_iff.mp h
        exact .inr ⟨hc, hno, p, r, ht⟩
      · have hnot : ∀ p r, ¬info.Taken db p r := fun p r ht => htaken ⟨p, r, ht⟩
        exact .inl ⟨h.selectsBelow hnot, fun p r hu => (h.marked p r hu).1⟩
    · rintro (⟨hs, hfree⟩ | ⟨hc, hno, p, r, ht⟩)
      · exact hs.marksBelow hfree
      · exact ht.marksBelow_iff.mpr ⟨hc, hno⟩
  have hpattern : info.submitRoot ++ ['/', '*'] = (info.submitRoot ++ ['/']) ++ ['*'] := by simp
  have hmeta : (∀ c ∈ info.submitRoot ++ ['/'], ¬Glob.IsMeta c) ↔
      ∀ c ∈ info.submitRoot, ¬Glob.IsMeta c := by
    simp [Glob.IsMeta, or_imp, forall_and]
  refine ⟨hfirst db, ?_⟩
  rw [← hmeta, ← glob_prefix_iff, ← hpattern]
  constructor
  · intro h p
    -- one row of another scan under the path `p`
    have hrow : (oneFile p (int64 info.scanId + 1)).indexCurrent.find p =
        some (fileRow (int64 info.scanId + 1)) := by
      rw [oneFile, Relational.Table.find_replace, if_pos rfl]
    rcases (hfirst _).mp (h (oneFile p (int64 info.scanId + 1)) fun _ => rfl) with
      ⟨hs, -⟩ | ⟨-, -, p', r', ht⟩
    · exact hs p _ hrow (by simp [fileRow])
    · cases ht.taken
  · intro h db hfree
    exact (hfirst db).mpr (.inl ⟨fun p r _ _ => h p, fun p r _ => hfree p⟩)

/-- A scan of the directory `a*` removes a file in the directory `ab` beside it. -/
theorem markDeleted_neighbour :
    let info : DeleteTask := ⟨2, ['/', 'a', '*'], false⟩
    let db := oneFile ['/', 'a', 'b', '/', 'x'] 1
    ¬info.Below ['/', 'a', 'b', '/', 'x'] ∧
      (db.markDeleted info).indexCurrent.find ['/', 'a', 'b', '/', 'x'] = none ∧
      ¬info.MarksBelow db (db.markDeleted info) := by
  intro info db
  have hbelow : ¬info.Below ['/', 'a', 'b', '/', 'x'] := by
    unfold DeleteTask.Below
    decide
  have hrow : db.indexCurrent.find ['/', 'a', 'b', '/', 'x'] = some (fileRow 1) := rfl
  have hgone : (db.markDeleted info).indexCurrent.find ['/', 'a', 'b', '/', 'x'] = none := by
    have hid : int64 2 = 2 := int64_eq_self (n := 2) (by decide)
    have hs : info.stale ['/', 'a', 'b', '/', 'x'] (fileRow 1) = true := by
      rw [DeleteTask.stale_eq_true_iff]
      exact ⟨by decide, by simp [fileRow, info, hid]⟩
    rw [Database.find_current_markDeleted, hrow, Option.filter_some, hs]
    rfl
  refine ⟨hbelow, hgone, fun h => ?_⟩
  have hkept := h.current_kept _ fun _ r hu => hbelow hu.below
  rw [hgone, hrow] at hkept
  cases hkept

end ScanDaemon
