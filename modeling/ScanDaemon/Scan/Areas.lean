import ScanDaemon.Daemon.Scheduler
import ScanDaemon.Scan.MultiScanner

/-! # The area of a scan

A scan records nothing outside the area of its root, and two areas with a path
in common have overlapping roots. The names in a directory are distinct, so
that a scan records no path twice.
-/

namespace ScanDaemon

variable {root root' p : Path} {data : ScanData} {ev : FileEvent}

/-- The path is the root, or below it. -/
def Within (root p : Path) : Prop := p = root ∨ root ++ ['/'] <+: p

instance : Decidable (Within root p) := inferInstanceAs (Decidable (_ ∨ _))

theorem Within.isPrefix (h : Within root p) : root <+: p := by
  rcases h with rfl | h
  · exact List.prefix_rfl
  · exact (List.prefix_append _ _).trans h

/-- What is within something below a root is below the root. -/
theorem below_of_within {name : Path} (h : Within (root ++ '/' :: name) p) :
    root ++ ['/'] <+: p := by
  refine .trans ?_ h.isPrefix
  exact (List.prefix_append_right_inj root).mpr (by simp)

/-- Roots whose areas have a path in common overlap. -/
theorem pathsOverlap_of_within (h : Within root p) (h' : Within root' p) :
    pathsOverlap root root' = true := by
  rw [pathsOverlap_iff]
  rcases h with rfl | h
  · rcases h' with rfl | h'
    · exact .inl rfl
    · exact .inr (.inl h')
  · rcases h' with rfl | h'
    · exact .inr (.inr h)
    -- the shorter one of the two roots is above the other one
    · have hcases : ∀ {q q' : Path}, q ++ ['/'] <+: q' ++ ['/'] → q = q' ∨ q ++ ['/'] <+: q' := by
        intro q q' hq
        rw [List.prefix_concat_iff] at hq
        exact hq.imp_left fun he => (List.append_inj' he rfl).1
      rcases List.prefix_or_prefix_of_prefix h h' with hp | hp
      · exact (hcases hp).imp_right .inr
      · exact (hcases hp).imp Eq.symm .inl

theorem ScanData.within_of_mem_events (h : ev ∈ data.events) : Within data.path ev.path := by
  induction data using ScanData.induction with
  | step data ih =>
    rw [data.events_eq, List.mem_cons, List.mem_flatMap] at h
    rcases h with rfl | ⟨c, hc, h⟩
    · exact .inl (by simp)
    · have hw := ih c hc h
      unfold ScanData.children at hc
      cases hn : data.node <;> simp [hn] at hc
      obtain ⟨name, node, -, rfl⟩ := hc
      exact .inr (below_of_within hw)

mutual

/-- The names in each directory are distinct and have no slash. -/
def FsNode.Proper : FsNode → Prop
  | .dir _ _ entries => (entries.map Prod.fst).Nodup ∧ FsNode.EntriesProper entries
  | .lstatError _ | .link _ _ | .file _ _ | .unreadable _ _ _ => True

def FsNode.EntriesProper : List (Path × FsNode) → Prop
  | [] => True
  | (name, node) :: entries => '/' ∉ name ∧ node.Proper ∧ FsNode.EntriesProper entries

end

theorem FsNode.EntriesProper.of_mem {entries : List (Path × FsNode)} {entry : Path × FsNode}
    (h : FsNode.EntriesProper entries) (he : entry ∈ entries) :
    '/' ∉ entry.1 ∧ entry.2.Proper := by
  induction entries with
  | nil => cases he
  | cons e entries ih =>
    obtain ⟨hname, hnode, hrest⟩ := h
    rcases List.mem_cons.mp he with rfl | he
    · exact ⟨hname, hnode⟩
    · exact ih hrest he

/-- A path within one of two names of a directory is not within the other one. -/
theorem eq_of_within_names {a b : Path} (ha : '/' ∉ a) (hb : '/' ∉ b)
    (h : Within (root ++ '/' :: a) p) (h' : Within (root ++ '/' :: b) p) : a = b := by
  have hslash : ∀ {c d : Path}, '/' ∉ d → ¬root ++ '/' :: c ++ ['/'] <+: root ++ '/' :: d := by
    intro c d hd hp
    rw [List.append_assoc, List.prefix_append_right_inj, List.cons_append,
      List.cons_prefix_cons] at hp
    exact hd (hp.2.subset (by simp))
  rcases pathsOverlap_iff.mp (pathsOverlap_of_within h h') with he | he | he
  · exact (List.cons.inj (List.append_cancel_left he)).2
  · exact absurd he (hslash ha)
  · exact absurd he (hslash hb)

/-- A scan of a proper tree records each path once. -/
theorem ScanData.nodup_paths (h : data.node.Proper) : (data.events.map FileEvent.path).Nodup := by
  induction data using ScanData.induction with
  | step data ih =>
    rw [data.events_eq, List.map_cons, List.nodup_cons, List.map_flatMap, List.nodup_flatMap]
    have hchild : ∀ c ∈ data.children, ∃ name, '/' ∉ name ∧ c.path = data.path ++ '/' :: name ∧
        c.node.Proper := by
      intro c hc
      unfold ScanData.children at hc
      cases hn : data.node with
      | dir mtime blocks entries =>
        simp only [hn, List.mem_map, List.mem_filter] at hc
        obtain ⟨entry, ⟨he, -⟩, rfl⟩ := hc
        rw [hn] at h
        exact ⟨entry.1, (h.2.of_mem he).1, rfl, (h.2.of_mem he).2⟩
      | _ => simp [hn] at hc
    refine ⟨?_, fun c hc => ?_, ?_⟩
    · rw [List.mem_flatMap]
      rintro ⟨c, hc, hp⟩
      obtain ⟨ev, hev, hpath⟩ := List.mem_map.mp hp
      obtain ⟨name, -, hc, -⟩ := hchild c hc
      have hbelow := (hc ▸ ScanData.within_of_mem_events hev).isPrefix.length_le
      rw [hpath, event_path, List.length_append, List.length_cons] at hbelow
      omega
    · obtain ⟨-, -, -, hproper⟩ := hchild c hc
      exact ih c hc hproper
    · have hnames : data.children.Pairwise fun c d => c.path ≠ d.path := by
        unfold ScanData.children
        cases hn : data.node with
        | dir mtime blocks entries =>
          rw [hn] at h
          rw [List.pairwise_map]
          have hnodup := List.pairwise_map.mp h.1
          refine (hnodup.sublist List.filter_sublist).imp fun hne hpath => hne ?_
          exact (List.cons.inj (List.append_cancel_left hpath)).2
        | _ => exact .nil
      refine hnames.imp_of_mem fun {c d} hc hd hne => ?_
      obtain ⟨a, ha, hca, -⟩ := hchild c hc
      obtain ⟨b, hb, hdb, -⟩ := hchild d hd
      intro p hp hp'
      obtain ⟨ev, hev, rfl⟩ := List.mem_map.mp hp
      obtain ⟨ev', hev', hpath⟩ := List.mem_map.mp hp'
      have hw := ScanData.within_of_mem_events hev
      have hw' := ScanData.within_of_mem_events hev'
      rw [hpath] at hw'
      rw [hca] at hw hne
      rw [hdb] at hw' hne
      exact hne (by rw [eq_of_within_names ha hb hw hw'])

end ScanDaemon
