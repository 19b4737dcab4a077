import Mathlib.Algebra.BigOperators.Group.Finset.Basic
import Mathlib.Data.Finset.Max

/-! # Tables with a primary key

A table is its partial function from keys to rows together with the finite set
of its keys. The statements that change a table are functions on tables; two
tables are equal when they hold the same rows.
-/

namespace Relational

variable {K V : Type}

structure Table (K V : Type) where
  find : K → Option V
  keys : Finset K
  mem_keys : ∀ k, k ∈ keys ↔ (find k).isSome

namespace Table

variable {t u : Table K V} {k j : K} {v w : V} {p q : K → V → Bool}

@[ext] theorem ext (h : ∀ k, t.find k = u.find k) : t = u := by
  have hf : t.find = u.find := funext h
  have hk : t.keys = u.keys := by
    ext k
    rw [t.mem_keys, u.mem_keys, hf]
  cases t
  cases u
  cases hf
  cases hk
  rfl

theorem find_eq_none : t.find k = none ↔ k ∉ t.keys := by
  rw [t.mem_keys, Option.not_isSome_iff_eq_none]

theorem mem_keys_of_find (h : t.find k = some v) : k ∈ t.keys :=
  (t.mem_keys k).mpr (by simp [h])

instance : EmptyCollection (Table K V) := ⟨⟨fun _ => none, ∅, by simp⟩⟩

@[simp] theorem find_empty : (∅ : Table K V).find k = none := rfl

/-- The rows that `g` gives to the keys of `S`, which are all the keys that it gives rows to. -/
def ofFind (g : K → Option V) (S : Finset K) (h : ∀ k, (g k).isSome → k ∈ S) : Table K V where
  find := g
  keys := S.filter fun k => (g k).isSome
  mem_keys k := by
    rw [Finset.mem_filter]
    exact ⟨And.right, fun hk => ⟨h k hk, hk⟩⟩

@[simp] theorem find_ofFind {g : K → Option V} {S : Finset K} {h : ∀ k, (g k).isSome → k ∈ S} :
    (ofFind g S h).find k = g k := rfl

/-- The rows that meet a condition. -/
def filter (p : K → V → Bool) (t : Table K V) : Table K V :=
  ofFind (fun k => (t.find k).filter (p k)) t.keys fun k hk => by
    rw [t.mem_keys]
    cases hf : t.find k with
    | none => simp [hf] at hk
    | some v => rfl

@[simp] theorem find_filter : (t.filter p).find k = (t.find k).filter (p k) := rfl

/-- `DELETE`: the rows that do not meet a condition. -/
def delete (p : K → V → Bool) (t : Table K V) : Table K V := t.filter fun k v => !p k v

theorem find_delete : (t.delete p).find k = (t.find k).filter fun v => !p k v := rfl

variable [DecidableEq K]

/-- `INSERT OR REPLACE` -/
def replace (k : K) (v : V) (t : Table K V) : Table K V :=
  ofFind (Function.update t.find k (some v)) (insert k t.keys) fun j hj => by
    rw [Finset.mem_insert, t.mem_keys]
    rcases eq_or_ne j k with rfl | hne
    · exact .inl rfl
    · exact .inr (by simpa [hne] using hj)

@[simp] theorem find_replace :
    (t.replace k v).find j = if j = k then some v else t.find j := by
  simp [replace, Function.update_apply]

/-- `UPDATE` of the row of a key. -/
def modify (k : K) (f : V → V) (t : Table K V) : Table K V :=
  ofFind (fun j => if j = k then (t.find j).map f else t.find j) t.keys fun j hj => by
    rw [t.mem_keys]
    split at hj
    · simpa using hj
    · exact hj

@[simp] theorem find_modify {f : V → V} :
    (t.modify k f).find j = if j = k then (t.find j).map f else t.find j := rfl

theorem keys_modify {f : V → V} : (t.modify k f).keys = t.keys := by
  ext j
  rw [mem_keys, find_modify, mem_keys]
  split_ifs <;> simp

/-- `INSERT`, which fails and changes nothing when the key is taken. -/
def insertRow (k : K) (v : V) (t : Table K V) : Table K V :=
  if (t.find k).isSome then t else t.replace k v

theorem find_insertRow :
    (t.insertRow k v).find j = if j = k then (t.find k).or (some v) else t.find j := by
  unfold insertRow
  cases hk : t.find k with
  | none => simp
  | some w =>
    rw [Option.isSome_some, if_pos rfl]
    split
    · subst j
      exact hk
    · rfl

theorem keys_insertRow : (t.insertRow k v).keys = insert k t.keys := by
  ext j
  rw [mem_keys, find_insertRow, Finset.mem_insert, mem_keys]
  by_cases hj : j = k
  · rw [if_pos hj]
    simp [hj]
  · rw [if_neg hj]
    simp [hj]

/-- One `INSERT` for each row of `u`, in any order. -/
def insertEach (u t : Table K V) : Table K V :=
  ofFind (fun k => (t.find k).or (u.find k)) (t.keys ∪ u.keys) fun k hk => by
    rw [Finset.mem_union, t.mem_keys, u.mem_keys]
    simpa using hk

@[simp] theorem find_insertEach : (insertEach u t).find k = (t.find k).or (u.find k) := rfl

/-- `INSERT ... SELECT`, which fails as a whole when one of the keys is taken. -/
def insertAll (u t : Table K V) : Table K V :=
  if Disjoint t.keys u.keys then insertEach u t else t

theorem find_insertAll (h : ∀ k, (u.find k).isSome → t.find k = none) :
    (insertAll u t).find k = (t.find k).or (u.find k) := by
  rw [insertAll, if_pos, find_insertEach]
  rw [Finset.disjoint_right]
  intro k hk
  exact find_eq_none.mp (h k ((u.mem_keys k).mp hk))

theorem insertAll_of_taken (hu : (u.find k).isSome) (ht : (t.find k).isSome) :
    insertAll u t = t := by
  rw [insertAll, if_neg]
  rw [Finset.not_disjoint_iff]
  exact ⟨k, (t.mem_keys k).mpr ht, (u.mem_keys k).mpr hu⟩

/-- The keys of the rows that meet a condition. -/
def select (p : K → V → Bool) (t : Table K V) : Finset K :=
  t.keys.filter fun k => (t.find k).any (p k)

omit [DecidableEq K] in
@[simp] theorem mem_select : k ∈ t.select p ↔ ∃ v, t.find k = some v ∧ p k v := by
  rw [select, Finset.mem_filter, Option.any_eq_true, and_iff_right_iff_imp]
  rintro ⟨v, hv, -⟩
  exact mem_keys_of_find hv

/-- `COUNT` -/
def count (p : K → V → Bool) (t : Table K V) : ℕ := (t.select p).card

/-- `SUM` -/
def sum (p : K → V → Bool) (f : V → ℤ) (t : Table K V) : ℤ :=
  ∑ k ∈ t.select p, (t.find k).elim 0 f

omit [DecidableEq K] in
theorem sum_true {f : V → ℤ} :
    t.sum (fun _ _ => true) f = ∑ k ∈ t.keys, (t.find k).elim 0 f := by
  have hselect : t.select (fun _ _ => true) = t.keys := by
    ext k
    rw [mem_select, t.mem_keys, Option.isSome_iff_exists]
    simp
  rw [sum, hselect]

section Congruence

omit [DecidableEq K]

theorem select_congr (h : ∀ k v, p k v → (t.find k = some v ↔ u.find k = some v)) :
    t.select p = u.select p := by
  ext k
  simp only [mem_select]
  exact exists_congr fun v => and_congr_left (h k v)

theorem count_congr (h : ∀ k v, p k v → (t.find k = some v ↔ u.find k = some v)) :
    t.count p = u.count p := by
  rw [count, count, select_congr h]

theorem sum_congr {f : V → ℤ} (h : ∀ k v, p k v → (t.find k = some v ↔ u.find k = some v)) :
    t.sum p f = u.sum p f := by
  rw [sum, sum, select_congr h]
  apply Finset.sum_congr rfl
  intro k hk
  obtain ⟨v, hv, hp⟩ := mem_select.mp hk
  rw [hv, (h k v hp).mpr hv]

end Congruence

end Table

end Relational
