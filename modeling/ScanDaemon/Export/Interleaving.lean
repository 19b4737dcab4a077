import ScanDaemon.Export.Footprint
import ScanDaemon.Export.ScanRun

/-! # Two scans in one queue

The events and sentinels of two scans reach the result thread in any order that
keeps the order of each. When neither scan matches a path of the other, the
tables are the same as after one scan and then the other.
-/

namespace ScanDaemon

open Relational Locality

namespace ScanRun

variable {scan a b : ScanRun} {db : Database} {t : ResultThread} {ev : FileEvent}
  {l : List FileEvent}

/-- The pattern of the statements that close the scan. -/
def pattern (scan : ScanRun) : Path := scan.root ++ ['/', '*']

/-- The id of a scan is in no row of the tables. -/
structure Unused (scan : ScanRun) (db : Database) : Prop extends scan.Fresh db where
  current : ∀ path c, db.indexCurrent.find path = some c → c.scanId ≠ int64 scan.id
  task : db.scanTask.find (int64 scan.id) = none

/-- Neither pattern matches a path that the other scan visits or finds under its root. -/
structure Apart (a b : ScanRun) (db : Database) : Prop where
  ids : a.id ≠ b.id
  unused : a.Unused db
  unused' : b.Unused db
  visits : ∀ path, a.Visits path → ¬b.Visits path
  unvisited : ∀ path, b.Visits path → glob a.pattern path = false
  unvisited' : ∀ path, a.Visits path → glob b.pattern path = false
  indexed : ∀ path, (db.indexCurrent.find path).isSome → glob a.pattern path = true →
    glob b.pattern path = false

/-- A queue with the elements of some scans, those of each in their order. -/
structure Merged (l : List FileEvent) (scans : List ScanRun) : Prop where
  only : ∀ ev ∈ l, ∃ scan ∈ scans, ev.scanId = scan.id
  own : ∀ scan ∈ scans, l.filter (fun ev => ev.scanId = scan.id) = scan.popped

theorem scanId_of_mem_popped (h : ev ∈ scan.popped) : ev.scanId = scan.id := by
  rcases List.mem_append.mp h with h | h
  · exact scanId_of_mem h
  · rw [List.mem_singleton.mp h]
    rfl

theorem filter_popped_self : scan.popped.filter (fun ev => ev.scanId = scan.id) = scan.popped := by
  rw [List.filter_eq_self]
  intro ev hev
  exact decide_eq_true (scanId_of_mem_popped hev)

theorem filter_popped_of_ne (h : a.id ≠ b.id) :
    a.popped.filter (fun ev => ev.scanId = b.id) = [] := by
  rw [List.filter_eq_nil_iff]
  intro ev hev
  rw [decide_eq_true_eq, scanId_of_mem_popped hev]
  exact h

theorem merged_append (h : a.id ≠ b.id) : Merged (a.popped ++ b.popped) [a, b] := by
  constructor
  · intro ev hev
    rcases List.mem_append.mp hev with hev | hev
    · exact ⟨a, by simp, scanId_of_mem_popped hev⟩
    · exact ⟨b, by simp, scanId_of_mem_popped hev⟩
  · rintro scan hscan
    rw [List.filter_append]
    rcases List.mem_pair.mp hscan with rfl | rfl
    · rw [filter_popped_self, filter_popped_of_ne h.symm, List.append_nil]
    · rw [filter_popped_self, filter_popped_of_ne h, List.nil_append]

section Merged

variable {scans : List ScanRun}

theorem Merged.swap (h : Merged l [a, b]) : Merged l [b, a] := by
  have hmem : ∀ scan, scan ∈ [a, b] ↔ scan ∈ [b, a] := by
    intro scan
    rw [List.mem_pair, List.mem_pair, or_comm]
  constructor
  · intro ev hev
    obtain ⟨scan, hscan, hid⟩ := h.only ev hev
    exact ⟨scan, (hmem scan).mp hscan, hid⟩
  · intro scan hscan
    exact h.own scan ((hmem scan).mpr hscan)

theorem Merged.mem_popped (h : Merged l scans) (hev : ev ∈ l) :
    ∃ scan ∈ scans, ev ∈ scan.popped := by
  obtain ⟨scan, hscan, hid⟩ := h.only ev hev
  refine ⟨scan, hscan, ?_⟩
  rw [← h.own scan hscan]
  exact List.mem_filter.mpr ⟨hev, decide_eq_true hid⟩

/-- Each sentinel of a merged queue finds the row of its scan. -/
theorem Merged.rowsReady {rows : ScanMap ScanTaskRow} (h : Merged l scans)
    (hrows : ∀ scan ∈ scans, rows.lookup scan.id = some scan.row) :
    ResultThread.RowsReady rows l := by
  have hone : ∀ scan ∈ scans, ResultThread.RowsReady rows scan.popped := by
    intro scan hscan
    have hready : ResultThread.RowsReady rows ([scan].flatMap ScanRun.popped) :=
      ScanRun.rowsReady (List.nodup_singleton _) (by simpa using hrows scan hscan)
    rwa [List.flatMap_singleton] at hready
  constructor
  · intro ev hev hs
    obtain ⟨scan, hscan, hm⟩ := h.mem_popped hev
    exact (hone scan hscan).registered ev hm hs
  · rw [List.pairwise_iff_forall_sublist]
    intro x y hxy hx hy heq
    -- two sentinels of one scan would be two in its own queue
    obtain ⟨scan, hscan, hid⟩ := h.only x (hxy.subset List.mem_cons_self)
    have hsub := hxy.filter fun ev => decide (ev.scanId = scan.id)
    rw [List.filter_eq_self.mpr (by simp [hid, ← heq]), h.own scan hscan] at hsub
    exact List.pairwise_iff_forall_sublist.mp (hone scan hscan).once hsub hx hy heq

theorem Merged.run (h : Merged l scans) (db : Database) (batchSize : ℕ) (ht : t.batchCount = 0)
    (hrows : ∀ scan ∈ scans, t.pendingScanRows.lookup scan.id = some scan.row) :
    ∃ t', (ResultThread.writeResultToDb batchSize l t).run (.flawless (.closed db)) =
      .ok t' (.flawless (.closed (l.foldl (Database.store t.pendingScanRows) db))) := by
  have hrun := ResultThread.run_writeResultToDb_flawless (d := db) (e := db) batchSize
    (h.rowsReady hrows)
  rwa [ht] at hrun

end Merged

/-! ## Footprints -/

/-- The paths that the scan visits, and those that it finds under its root. -/
def footprint (scan : ScanRun) (db : Database) : Footprint where
  id := int64 scan.id
  pattern := scan.pattern
  paths := fun path =>
    scan.Visits path ∨ (db.indexCurrent.find path).isSome ∧ glob scan.pattern path = true

theorem Unused.confines (h : scan.Unused db) : (scan.footprint db).Confines db := by
  constructor
  · intro path c hc hg
    exact .inr ⟨by rw [hc]; rfl, hg⟩
  · intro path c hc hid
    exact absurd hid (h.current path c hc)
  · intro path hs
    have hnone : db.indexHistory.find (path, (scan.footprint db).id) = none := h.history path
    rw [hnone] at hs
    cases hs

theorem Apart.symm (h : Apart a b db) : Apart b a db := by
  constructor
  · exact h.ids.symm
  · exact h.unused'
  · exact h.unused
  · intro path hb ha
    exact h.visits path ha hb
  · exact h.unvisited'
  · exact h.unvisited
  · intro path hs hg
    rw [← Bool.not_eq_true]
    intro hg'
    rw [h.indexed path hs hg'] at hg
    cases hg

theorem Apart.stored_ids (h : Apart a b db) : int64 a.id ≠ int64 b.id :=
  fun heq => h.ids (int64_inj a.idLt b.idLt heq)

theorem Apart.disjoint (h : Apart a b db) :
    Disjoint (a.footprint db).region (b.footprint db).region := by
  have hpaths : ∀ path, path ∈ (a.footprint db).paths → path ∉ (b.footprint db).paths := by
    rintro path (ha | ⟨hs, ha⟩) (hb | ⟨hs', hb⟩)
    · exact h.visits path ha hb
    · rw [h.unvisited' path ha] at hb
      cases hb
    · rw [h.unvisited path hb] at ha
      cases ha
    · rw [h.indexed path hs ha] at hb
      cases hb
  rw [Set.disjoint_left]
  intro k hk hk'
  cases k with
  | history k => exact hpaths k.1 hk hk'
  | current path => exact hpaths path hk hk'
  | task i => exact h.stored_ids (hk.symm.trans hk')
  | diff k => exact h.stored_ids (hk.symm.trans hk')

/-- What one scan stores is local to it, and admitted by the other. -/
theorem Apart.local_store {rows : ScanMap ScanTaskRow} (h : Apart a b db)
    (ha : rows.lookup a.id = some a.row) (hev : ev ∈ a.popped) :
    Local Database.read (Footprint.Confined {a.footprint db, b.footprint db})
      (a.footprint db).region fun d => d.store rows ev := by
  have hmem : a.footprint db ∈ ({a.footprint db, b.footprint db} : Set Footprint) := .inl rfl
  unfold Database.store
  rcases List.mem_append.mp hev with hev | hev
  · have hp : ev.path ∈ (a.footprint db).paths := .inl (List.mem_map_of_mem hev)
    simp only [a.plain ev hev, Bool.false_eq_true, if_false]
    apply Footprint.local_upsert _ hp
    rintro G (rfl | rfl)
    · exact .inl hp
    · refine .inr ⟨h.unvisited' _ (List.mem_map_of_mem hev), ?_⟩
      rw [scanId_of_mem hev]
      exact h.stored_ids
  · obtain rfl := List.mem_singleton.mp hev
    have hlook : rows.lookup a.fin.scanId = some a.row := ha
    simp only [a.sentinel, if_true, hlook]
    apply Footprint.local_finalize hmem
    · rintro G (rfl | rfl) hid
      · rfl
      · exact absurd hid h.stored_ids
    · rfl
    · rw [ScanTaskRow.withRoot_scanId]
      exact a.rowScan
    · rfl

/-- Whatever the order in the queue, the tables are those of one scan after the other. -/
theorem stored_in_any_order (batchSize : ℕ) (hapart : Apart a b db) (hl : Merged l [a, b])
    (ht : t.batchCount = 0)
    (hrows : ∀ scan ∈ [a, b], t.pendingScanRows.lookup scan.id = some scan.row) :
    ∃ t₁ t₂ t₃ db',
      (ResultThread.writeResultToDb batchSize l t).run (.flawless (.closed db)) =
        .ok t₁ (.flawless (.closed db')) ∧
      (ResultThread.writeResultToDb batchSize (a.popped ++ b.popped) t).run
        (.flawless (.closed db)) = .ok t₂ (.flawless (.closed db')) ∧
      (ResultThread.writeResultToDb batchSize (b.popped ++ a.popped) t).run
        (.flawless (.closed db)) = .ok t₃ (.flawless (.closed db')) := by
  let rows := t.pendingScanRows
  let owner : FileEvent → Bool := fun ev => ev.scanId = a.id
  let region : Bool → Set RowKey := fun i =>
    if i then (a.footprint db).region else (b.footprint db).region
  have ha : rows.lookup a.id = some a.row := hrows a (by simp)
  have hb : rows.lookup b.id = some b.row := hrows b (by simp)
  have hregion : Pairwise fun i j => Disjoint (region i) (region j) := by
    intro i j hij
    cases i <;> cases j
    · exact absurd rfl hij
    · exact hapart.symm.disjoint
    · exact hapart.disjoint
    · exact absurd rfl hij
  have hlocal : ∀ ev ∈ l, Local Database.read
      (Footprint.Confined {a.footprint db, b.footprint db}) (region (owner ev))
        fun d => d.store rows ev := by
    intro ev hev
    obtain ⟨scan, hscan, hm⟩ := hl.mem_popped hev
    rcases List.mem_pair.mp hscan with rfl | rfl
    · have ho : owner ev = true := decide_eq_true (scanId_of_mem_popped hm)
      rw [ho]
      exact hapart.local_store ha hm
    · have ho : owner ev = false := by
        apply decide_eq_false
        rw [scanId_of_mem_popped hm]
        exact hapart.ids.symm
      rw [ho, Set.pair_comm]
      exact hapart.symm.local_store hb hm
  have hconf : Footprint.Confined {a.footprint db, b.footprint db} db := by
    rintro G (rfl | rfl)
    · exact hapart.unused.confines
    · exact hapart.unused'.confines
  -- each scan's own order is the same in both queues
  have hfilter : ∀ {l' : List FileEvent}, Merged l' [a, b] → ∀ i,
      l'.filter (fun ev => owner ev = i) = if i then a.popped else b.popped := by
    intro l' hl' i
    cases i with
    | true => simpa [owner] using hl'.own a (by simp)
    | false =>
      rw [if_neg (by simp), ← hl'.own b (by simp)]
      apply List.filter_congr
      intro ev hev
      rw [decide_eq_decide, decide_eq_false_iff_not]
      constructor
      · intro hne
        obtain ⟨scan, hscan, hid⟩ := hl'.only ev hev
        rcases List.mem_pair.mp hscan with rfl | rfl
        · exact absurd hid hne
        · exact hid
      · rintro hid hid'
        exact hapart.ids (hid'.symm.trans hid)
  have hsame : ∀ {l' : List FileEvent}, Merged l' [a, b] →
      l'.foldl (Database.store rows) db = l.foldl (Database.store rows) db := by
    intro l' hl'
    apply Database.ext_read
    exact (run_eq_of_filter_eq hregion hlocal
      (fun i => (hfilter hl i).trans (hfilter hl' i).symm) hconf).symm
  obtain ⟨t₁, h₁⟩ := hl.run db batchSize ht hrows
  have hab := merged_append hapart.ids
  have hba := (merged_append hapart.ids.symm).swap
  obtain ⟨t₂, h₂⟩ := hab.run db batchSize ht hrows
  obtain ⟨t₃, h₃⟩ := hba.run db batchSize ht hrows
  rw [hsame hab] at h₂
  rw [hsame hba] at h₃
  exact ⟨t₁, t₂, t₃, _, h₁, h₂, h₃⟩

/-- The sentinel of the second scan overtakes the one of the first. -/
theorem stored_in_any_order_crossed :
    let a := fileScan 1 ['/', 'a'] 1 (by decide)
    let b := fileScan 2 ['/', 'b'] 2 (by decide)
    ∃ t₁ t₂ t₃ db',
      (ResultThread.writeResultToDb 2
        [fileEvent 1 ['/', 'a'] 1, fileEvent 2 ['/', 'b'] 2, b.fin, a.fin] (twoRows a b)).run
        (.flawless (.closed .empty)) = .ok t₁ (.flawless (.closed db')) ∧
      (ResultThread.writeResultToDb 2 (a.popped ++ b.popped) (twoRows a b)).run
        (.flawless (.closed .empty)) = .ok t₂ (.flawless (.closed db')) ∧
      (ResultThread.writeResultToDb 2 (b.popped ++ a.popped) (twoRows a b)).run
        (.flawless (.closed .empty)) = .ok t₃ (.flawless (.closed db')) := by
  intro a b
  have hids : a.id ≠ b.id := by decide
  have hunused : ∀ scan : ScanRun, scan.Unused .empty := by
    intro scan
    refine ⟨⟨fun _ => rfl, fun _ => rfl⟩, ?_, rfl⟩
    intro path c hc
    cases hc
  have hrows := lookup_twoRows hids
  apply stored_in_any_order 2 _ _ rfl hrows
  · constructor
    · exact hids
    · exact hunused a
    · exact hunused b
    · intro path ha hb
      exact absurd ((List.mem_singleton.mp ha).symm.trans (List.mem_singleton.mp hb)) (by decide)
    · intro path hb
      rw [List.mem_singleton.mp hb]
      decide
    · intro path ha
      rw [List.mem_singleton.mp ha]
      decide
    · intro path hs
      cases hs
  · constructor
    · decide
    · intro scan hscan
      rcases List.mem_pair.mp hscan with rfl | rfl <;> rfl

end ScanRun

end ScanDaemon
