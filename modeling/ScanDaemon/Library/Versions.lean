import ScanDaemon.Library.Table

/-! # Versioned rows

The keys of an append-only table carry a version. Of the rows of a key that meet
a condition the latest one counts; it changes only when a version above all of
them is added.
-/

namespace Relational

variable {K I V : Type} [LinearOrder I] {q : V → Prop} {t u : Table (K × I) V} {k : K} {i : I}
  {v w : V}

/-- The row of `k` with the largest version of those that meet `q`. -/
def Latest (q : V → Prop) (t : Table (K × I) V) (k : K) (v : V) : Prop :=
  ∃ i, t.find (k, i) = some v ∧ q v ∧ ∀ j w, t.find (k, j) = some w → q w → j ≤ i

theorem Latest.unique (h : Latest q t k v) (h' : Latest q t k w) : v = w := by
  obtain ⟨i, hi, hv, hmax⟩ := h
  obtain ⟨j, hj, hw, hmax'⟩ := h'
  obtain rfl : i = j := le_antisymm (hmax' i v hi hv) (hmax j w hj hw)
  exact Option.some.inj (hi.symm.trans hj)

/-- From `t` to `u` at most the version `i` of `k` is added, which is above the others. -/
structure Adds (t u : Table (K × I) V) (k : K) (i : I) : Prop where
  keeps : ∀ j ≠ i, u.find (k, j) = t.find (k, j)
  below : ∀ j, (t.find (k, j)).isSome → j < i

theorem Adds.latest_iff_eq (h : Adds t u k i) (hv : u.find (k, i) = some v) (hq : q v) :
    Latest q u k w ↔ w = v := by
  have hlatest : Latest q u k v := by
    refine ⟨i, hv, hq, ?_⟩
    intro j w hw _
    rcases eq_or_ne j i with rfl | hne
    · exact le_rfl
    · rw [h.keeps j hne] at hw
      exact (h.below j (by simp [hw])).le
  constructor
  · intro hw
    exact hw.unique hlatest
  · rintro rfl
    exact hlatest

theorem Adds.latest_iff (h : Adds t u k i) (hs : ∀ v, u.find (k, i) = some v → ¬q v) :
    Latest q u k w ↔ Latest q t k w := by
  have hkeep : ∀ j v, q v → (u.find (k, j) = some v ↔ t.find (k, j) = some v) := by
    intro j v hq
    rcases eq_or_ne j i with rfl | hne
    · constructor
      · intro hv
        exact absurd hq (hs v hv)
      · intro hv
        exact absurd (h.below j (by simp [hv])) (lt_irrefl j)
    · rw [h.keeps j hne]
  apply exists_congr
  intro j
  constructor
  · rintro ⟨hw, hq, hmax⟩
    exact ⟨(hkeep j w hq).mp hw, hq, fun l v hv hqv => hmax l v ((hkeep l v hqv).mpr hv) hqv⟩
  · rintro ⟨hw, hq, hmax⟩
    exact ⟨(hkeep j w hq).mpr hw, hq, fun l v hv hqv => hmax l v ((hkeep l v hqv).mp hv) hqv⟩

end Relational
