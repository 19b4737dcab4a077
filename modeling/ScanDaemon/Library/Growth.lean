import ScanDaemon.Library.Session
import ScanDaemon.Library.Table

/-! # Contents that only grow

An `INSERT` changes no row that is there. A session of statements that only
extend the contents leaves stored contents that extend those it has found, in
whichever of its calls it fails or stops.
-/

namespace Relational

namespace Table

variable {K V : Type} {t u w : Table K V}

/-- The rows of `t` are in `u`, unchanged. -/
def Within (t u : Table K V) : Prop := ∀ k v, t.find k = some v → u.find k = some v

theorem Within.refl : t.Within t := fun _ _ h => h

theorem Within.trans (h : t.Within u) (h' : u.Within w) : t.Within w :=
  fun k v hk => h' k v (h k v hk)

variable [DecidableEq K]

theorem within_insertEach : t.Within (insertEach u t) := by
  intro k v hk
  rw [find_insertEach, hk, Option.some_or]

theorem within_insertAll : t.Within (insertAll u t) := by
  unfold insertAll
  split_ifs
  · exact within_insertEach
  · exact Within.refl

theorem within_insertRow {k : K} {v : V} : t.Within (t.insertRow k v) := by
  intro j w hj
  rw [find_insertRow]
  split_ifs with h
  · rw [← h, hj, Option.some_or]
  · exact hj

end Table

namespace Connection

variable {D : Type} {R : D → D → Prop} {d₀ d e : D} {c : Connection D}

/-- What is stored extends `d₀`, and what the open transaction sees extends what is stored. -/
structure Grown (R : D → D → Prop) (d₀ : D) (c : Connection D) : Prop where
  durable : R d₀ c.durable
  working : ∀ e, c.working = some e → R c.durable e

theorem grown_closed (h : R d₀ d) : Grown R d₀ (closed d) := by
  constructor
  · exact h
  · intro e he
    cases he

theorem Grown.begin (hrefl : ∀ d, R d d) (h : Grown R d₀ (closed d)) :
    Grown R d₀ (opened d d) := by
  constructor
  · exact h.durable
  · intro e he
    obtain rfl := Option.some.inj he
    exact hrefl _

theorem Grown.commit (htrans : ∀ a b c, R a b → R b c → R a c) (h : Grown R d₀ (opened d e)) :
    Grown R d₀ (closed e) :=
  grown_closed (htrans _ _ _ h.durable (h.working e rfl))

/-- A statement that extends the contents. -/
theorem Grown.update (htrans : ∀ a b c, R a b → R b c → R a c) {f : D → D}
    (hf : ∀ d, R d (f d)) (h : Grown R d₀ c) : Grown R d₀ (c.update f) := by
  obtain ⟨d, w⟩ := c
  cases w with
  | none => exact grown_closed (htrans _ _ _ h.durable (hf d))
  | some e =>
    constructor
    · exact h.durable
    · intro e' he'
      obtain rfl := Option.some.inj he'
      exact htrans _ _ _ (h.working e rfl) (hf e)

end Connection

end Relational
