import ScanDaemon.Daemon.Scheduler
import ScanDaemon.Scan.Paths

/-! # Overlapping roots

`paths_overlap` puts a slash behind one path and looks for it at the start of
the other one. Between canonical paths this is the order of the components,
except that the root directory, whose path ends with a slash already, overlaps
with nothing but itself.
-/

namespace ScanDaemon

variable {a b root : List Name} {p q : Path} {sc : Scheduler}

/-- One of two paths is above the other one exactly if they are equal or one is properly above. -/
theorem prefix_or_iff : a <+: b ∨ b <+: a ↔
    a = b ∨ (∃ name rest, a = b ++ name :: rest) ∨ ∃ name rest, b = a ++ name :: rest := by
  constructor
  · rintro (⟨rest, rfl⟩ | ⟨rest, rfl⟩)
    · cases rest with
      | nil => exact .inl (List.append_nil a).symm
      | cons name rest => exact .inr (.inr ⟨name, rest, rfl⟩)
    · cases rest with
      | nil => exact .inl (List.append_nil b)
      | cons name rest => exact .inr (.inl ⟨name, rest, rfl⟩)
  · rintro (rfl | ⟨name, rest, rfl⟩ | ⟨name, rest, rfl⟩)
    · exact .inl List.prefix_rfl
    · exact .inr (List.prefix_append b _)
    · exact .inl (List.prefix_append a _)

/-- `paths_overlap` misses the root directory and nothing else. -/
theorem pathsOverlap_canonical_iff : pathsOverlap (canonical a) (canonical b) = true ↔
    (a <+: b ∨ b <+: a) ∧ (a = [] ↔ b = []) := by
  rw [pathsOverlap_iff, canonical_inj, canonical_slash_prefix_iff, canonical_slash_prefix_iff,
    prefix_or_iff]
  constructor
  · rintro (rfl | ⟨hb, name, rest, rfl⟩ | ⟨ha, name, rest, rfl⟩)
    · exact ⟨.inl rfl, Iff.rfl⟩
    · exact ⟨.inr (.inl ⟨name, rest, rfl⟩), by simp [hb]⟩
    · exact ⟨.inr (.inr ⟨name, rest, rfl⟩), by simp [ha]⟩
  · rintro ⟨rfl | ⟨name, rest, rfl⟩ | ⟨name, rest, rfl⟩, hnil⟩
    · exact .inl rfl
    · exact .inr (.inl ⟨fun hb => by simp [hb] at hnil, name, rest, rfl⟩)
    · exact .inr (.inr ⟨fun ha => by simp [ha] at hnil, name, rest, rfl⟩)

theorem Scheduler.checkNonOverlapPath_iff :
    sc.checkNonOverlapPath p = true ↔ ∀ r ∈ sc.rootMap, pathsOverlap p r = false := by
  simp only [checkNonOverlapPath, Bool.and_eq_true, decide_eq_true_eq, and_iff_right_iff_imp]
  intro h hp
  exact absurd (pathsOverlap_self p) (by simp [h p hp])

/-- Two canonical paths overlap exactly if one of them is the other or lies above it, unless only
one of them is the root directory. A root is accepted only if it is disjoint from the locked ones,
unless one of the two and not the other is the root directory and no further one overlaps. -/
theorem paths_overlap_iff (a b root : List Name) (sc : Scheduler)
    (hlocked : ∀ p ∈ sc.rootMap, ∃ locked, canonical locked = p) :
    ((pathsOverlap (canonical a) (canonical b) = true ↔ a <+: b ∨ b <+: a) ↔ (a = [] ↔ b = [])) ∧
    pathsOverlap (canonical a) (canonical b) = pathsOverlap (canonical b) (canonical a) ∧
    ((sc.checkNonOverlapPath (canonical root) = true →
        ∀ locked, canonical locked ∈ sc.rootMap → ¬locked <+: root ∧ ¬root <+: locked) ↔
      (∀ locked, canonical locked ∈ sc.rootMap → (root = [] ↔ locked = [])) ∨
        ∃ locked, canonical locked ∈ sc.rootMap ∧ (root = [] ↔ locked = []) ∧
          (root <+: locked ∨ locked <+: root)) := by
  refine ⟨?_, pathsOverlap_comm _ _, ?_⟩
  · rw [pathsOverlap_canonical_iff, and_iff_left_iff_imp]
    constructor
    · intro h
      constructor
      · rintro rfl
        exact (h (.inl (List.nil_prefix))).mp rfl
      · rintro rfl
        exact (h (.inr (List.nil_prefix))).mpr rfl
    · exact fun h _ => h
  · have hcheck : sc.checkNonOverlapPath (canonical root) = true ↔
        ∀ locked, canonical locked ∈ sc.rootMap →
          ¬((root <+: locked ∨ locked <+: root) ∧ (root = [] ↔ locked = [])) := by
      simp only [Scheduler.checkNonOverlapPath_iff, ← pathsOverlap_canonical_iff, Bool.not_eq_true]
      constructor
      · intro h locked hmem
        exact h _ hmem
      · intro h p hp
        obtain ⟨locked, rfl⟩ := hlocked p hp
        exact h locked hp
    rw [hcheck]
    constructor
    · intro h
      by_contra hno
      obtain ⟨hroot, hover⟩ := not_or.mp hno
      push Not at hroot
      obtain ⟨locked, hmem, hne⟩ := hroot
      have hfree := h fun locked hmem ho => hover ⟨locked, hmem, ho.2, ho.1⟩
      rcases hne with ⟨rfl, -⟩ | ⟨-, rfl⟩
      · exact (hfree locked hmem).2 List.nil_prefix
      · exact (hfree [] hmem).1 List.nil_prefix
    · rintro (h | ⟨locked, hmem, hnil, ho⟩) hfree
      · intro locked hmem
        have hno := hfree locked hmem
        exact ⟨fun hp => hno ⟨.inr hp, h locked hmem⟩, fun hp => hno ⟨.inl hp, h locked hmem⟩⟩
      · exact absurd ⟨ho, hnil⟩ (hfree locked hmem)

/-- A scheduler with `/a` locked. -/
def lockedA : Scheduler := { Scheduler.new 0 with rootMap := {canonical [nameA]} }

theorem mem_lockedA : p ∈ lockedA.rootMap ↔ p = canonical [nameA] := Finset.mem_singleton

/-- While `/a` is locked, `/b` is accepted and `/a/b` is not. -/
theorem paths_overlap_locked :
    lockedA.checkNonOverlapPath (canonical [nameB]) = true ∧ ¬[nameA] <+: [nameB] ∧
      pathsOverlap (canonical [nameA]) (canonical [nameA, nameB]) = true := by
  have hlocked : ∀ p ∈ lockedA.rootMap, ∃ locked, canonical locked = p :=
    fun p hp => ⟨[nameA], (mem_lockedA.mp hp).symm⟩
  have hb : lockedA.checkNonOverlapPath (canonical [nameB]) = true := by decide
  obtain ⟨hover, -, hcheck⟩ := paths_overlap_iff [nameA] [nameA, nameB] [nameB] lockedA hlocked
  have hfree := hcheck.mpr (.inl fun locked hmem => by
    rw [canonical_inj.mp (mem_lockedA.mp hmem)]
    simp)
  exact ⟨hb, (hfree hb [nameA] (mem_lockedA.mpr rfl)).1,
    (hover.mpr (by simp)).mpr (.inl (List.prefix_append [nameA] [nameB]))⟩

/-- A scheduler with the root directory locked. -/
def lockedRoot : Scheduler := { Scheduler.new 0 with rootMap := {canonical []} }

/-- The root directory contains `/a`, does not overlap with it, and while it is locked, `/a` is
accepted. -/
theorem paths_overlap_root :
    ¬(pathsOverlap (canonical []) (canonical [nameA]) = true ↔
      [] <+: [nameA] ∨ [nameA] <+: []) ∧
    canonical [] ∈ lockedRoot.rootMap ∧
    lockedRoot.checkNonOverlapPath (canonical [nameA]) = true := by
  have hno : pathsOverlap (canonical []) (canonical [nameA]) = false := by decide
  refine ⟨?_, Finset.mem_singleton_self _, by decide⟩
  rw [hno]
  simp

end ScanDaemon
