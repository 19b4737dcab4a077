import Mathlib.Algebra.BigOperators.Ring.Finset
import Mathlib.Data.List.Basic
import Mathlib.Tactic
import ScanDaemon.Library.Table

/-! # Rows in groups

A group function gives a row of a table its group, or none when the row does not
count. The sums of the groups make up the sum of the rows that count. A loop that
adds the amounts one after another under the keys of a map leaves the sum of each
key, in unsigned arithmetic, whatever the order of the amounts.
-/

namespace Relational

variable {K V G : Type} [DecidableEq G]

namespace Table

variable {t : Table K V} {group : K → V → Option G} {f : V → ℤ} {g : G} {S : Finset G}

/-- `SUM ... GROUP BY` -/
def groupSum (t : Table K V) (group : K → V → Option G) (f : V → ℤ) (g : G) : ℤ :=
  t.sum (fun k v => group k v = some g) f

/-- `COUNT ... GROUP BY` -/
def groupCount (t : Table K V) (group : K → V → Option G) (g : G) : ℕ :=
  t.count fun k v => group k v = some g

/-- The rows that count are the rows of the groups. -/
theorem select_isSome [DecidableEq K]
    (h : ∀ k v g, t.find k = some v → group k v = some g → g ∈ S) :
    (t.select fun k v => (group k v).isSome) =
      S.biUnion fun g => t.select fun k v => group k v = some g := by
  ext k
  simp only [mem_select, Finset.mem_biUnion, decide_eq_true_eq]
  constructor
  · rintro ⟨v, hv, hg⟩
    obtain ⟨g, hg⟩ := Option.isSome_iff_exists.mp hg
    exact ⟨g, h k v g hv hg, v, hv, hg⟩
  · rintro ⟨g, -, v, hv, hg⟩
    exact ⟨v, hv, Option.isSome_iff_exists.mpr ⟨g, hg⟩⟩

theorem disjoint_groups :
    (↑S : Set G).PairwiseDisjoint fun g => t.select fun k v => group k v = some g := by
  intro g _ g' _ hne
  rw [Function.onFun, Finset.disjoint_left]
  intro k hk hk'
  obtain ⟨v, hv, hg⟩ := mem_select.mp hk
  obtain ⟨v', hv', hg'⟩ := mem_select.mp hk'
  obtain rfl := Option.some.inj (hv.symm.trans hv')
  simp only [decide_eq_true_eq] at hg hg'
  exact hne (Option.some.inj (hg.symm.trans hg'))

theorem sum_groupSum (h : ∀ k v g, t.find k = some v → group k v = some g → g ∈ S) :
    ∑ g ∈ S, t.groupSum group f g = t.sum (fun k v => (group k v).isSome) f := by
  classical
  rw [sum, select_isSome h, Finset.sum_biUnion disjoint_groups]
  rfl

theorem sum_groupCount (h : ∀ k v g, t.find k = some v → group k v = some g → g ∈ S) :
    ∑ g ∈ S, t.groupCount group g = t.count fun k v => (group k v).isSome := by
  classical
  rw [count, select_isSome h, Finset.card_biUnion disjoint_groups]
  rfl

end Table

/-! ## A loop that adds under keys -/

variable {m : ℕ} {l : List (G × ℕ)} {t : Table G ℕ} {g g' : G} {a : ℕ}

/-- `map[g] += a` on unsigned integers below `m`. -/
def addUnder (m : ℕ) (t : Table G ℕ) (x : G × ℕ) : Table G ℕ :=
  t.replace x.1 (((t.find x.1).getD 0 + x.2) % m)

def accumulate (m : ℕ) (l : List (G × ℕ)) : Table G ℕ := l.foldl (addUnder m) ∅

/-- What is added under `g`. -/
def amounts (g : G) (l : List (G × ℕ)) : List ℕ := (l.filter fun x => x.1 = g).map Prod.snd

theorem amounts_concat : amounts g (l ++ [(g', a)]) =
    amounts g l ++ if g' = g then [a] else [] := by
  rw [amounts, List.filter_append, List.map_append, amounts]
  split_ifs with h <;> simp [h]

theorem accumulate_concat {x : G × ℕ} :
    accumulate m (l ++ [x]) = addUnder m (accumulate m l) x := by
  rw [accumulate, List.foldl_concat, accumulate]

theorem find_accumulate : (accumulate m l).find g =
    if g ∈ l.map Prod.fst then some ((amounts g l).sum % m) else none := by
  induction l using List.reverseRecOn with
  | nil => rfl
  | append_singleton l x ih =>
    obtain ⟨g', a⟩ := x
    rw [accumulate_concat, addUnder, Table.find_replace, amounts_concat]
    by_cases hg : g = g'
    · subst hg
      have hval : ((accumulate m l).find g).getD 0 = (amounts g l).sum % m := by
        rw [ih]
        split_ifs with hmem
        · rfl
        · have hnil : amounts g l = [] := by
            rw [amounts, List.map_eq_nil_iff, List.filter_eq_nil_iff]
            intro x hx he
            exact hmem (List.mem_map.mpr ⟨x, hx, by simpa using he⟩)
          simp [hnil]
      simp [hval]
    · have hmem : g ∈ (l ++ [(g', a)]).map Prod.fst ↔ g ∈ l.map Prod.fst := by simp [hg]
      rw [if_neg hg, ih, if_neg (Ne.symm hg), List.append_nil]
      simp only [hmem]

/-- A loop that sets the values of keys, each the same whenever it is set. -/
theorem find_foldl_replace {V : Type} {val : G → V} {l : List G} {t : Table G V} :
    (l.foldl (fun t g => t.replace g (val g)) t).find g =
      if g ∈ l then some (val g) else t.find g := by
  induction l generalizing t with
  | nil => simp
  | cons g' l ih =>
    rw [List.foldl_cons, ih, Table.find_replace]
    by_cases hl : g ∈ l
    · simp [hl]
    · by_cases hg : g = g' <;> simp [hl, hg]

theorem mem_keys_accumulate : g ∈ (accumulate m l).keys ↔ g ∈ l.map Prod.fst := by
  rw [Table.mem_keys, find_accumulate]
  split_ifs with h <;> simp [h]

end Relational
