import Mathlib.Data.List.Infix
import Mathlib.Data.List.Lex
import Mathlib.Order.Lattice
import Mathlib.Tactic.Common

/-! # Words made of components

A separator stands before each component of a word, as in an absolute path. The
components do not contain the separator, so that a word determines them, and a
prefix of a word that ends at a separator is a word made of its first components.
The letters of words may be ordered: a prefix of two words is one of every word
between them, whatever the components are.
-/

namespace Components

variable {α : Type*} {sep : α} {c d x y : List α} {v w : List (List α)}

def joined (sep : α) (v : List (List α)) : List α := v.flatMap (sep :: ·)

/-- No component contains the separator. -/
def Clean (sep : α) (v : List (List α)) : Prop := ∀ c ∈ v, sep ∉ c

@[simp] theorem joined_nil : joined sep [] = [] := rfl

@[simp] theorem joined_cons : joined sep (c :: v) = sep :: (c ++ joined sep v) := rfl

@[simp] theorem joined_append : joined sep (v ++ w) = joined sep v ++ joined sep w :=
  List.flatMap_append

theorem Clean.head (h : Clean sep (c :: v)) : sep ∉ c := h c List.mem_cons_self

theorem Clean.tail (h : Clean sep (c :: v)) : Clean sep v :=
  fun d hd => h d (List.mem_cons_of_mem c hd)

theorem joined_eq_nil_iff : joined sep v = [] ↔ v = [] := by
  cases v <;> simp

/-- A component in front of a separator is compared as a whole. -/
theorem component_prefix_iff (hc : sep ∉ c) (hd : sep ∉ d) :
    c ++ sep :: x <+: d ++ joined sep w ↔ c = d ∧ sep :: x <+: joined sep w := by
  induction c generalizing d with
  | nil =>
    cases d with
    | nil => simp
    | cons b d =>
      have hb : sep ≠ b := fun he => hd (he ▸ List.mem_cons_self)
      simp [hb]
  | cons a c ih =>
    have ha : a ≠ sep := fun he => hc (he ▸ List.mem_cons_self)
    cases d with
    | nil => cases w <;> simp [ha]
    | cons b d =>
      rw [List.cons_append, List.cons_append, List.cons_prefix_cons,
        ih (fun h => hc (List.mem_cons_of_mem a h)) fun h => hd (List.mem_cons_of_mem b h),
        ← and_assoc, List.cons.injEq]

/-- A word with a separator behind it is a prefix of the words with more components. -/
theorem joined_prefix_iff (hv : Clean sep v) (hw : Clean sep w) :
    joined sep v ++ [sep] <+: joined sep w ↔ ∃ d rest, w = v ++ d :: rest := by
  induction v generalizing w with
  | nil => cases w <;> simp
  | cons c v ih =>
    cases w with
    | nil => simp
    | cons d w =>
      have hsep : ∃ x, joined sep v ++ [sep] = sep :: x := by
        cases v with
        | nil => exact ⟨[], rfl⟩
        | cons c v => exact ⟨_, List.cons_append⟩
      obtain ⟨x, hx⟩ := hsep
      rw [joined_cons, joined_cons, List.cons_append, List.append_assoc, List.cons_prefix_cons, hx,
        component_prefix_iff hv.head hw.head, ← hx, ih hv.tail hw.tail]
      constructor
      · rintro ⟨-, rfl, d, rest, rfl⟩
        exact ⟨d, rest, rfl⟩
      · rintro ⟨e, rest, he⟩
        obtain ⟨rfl, rfl⟩ := List.cons.inj he
        exact ⟨rfl, rfl, e, rest, rfl⟩

theorem Clean.snoc (hw : Clean sep w) : Clean sep (w ++ [[]]) := by
  intro c hc
  rcases List.mem_append.mp hc with hc | hc
  · exact hw c hc
  · simp [List.mem_singleton.mp hc]

/-- Closed by a separator, a word is a prefix exactly if its components are. -/
theorem closed_prefix_iff (hv : Clean sep v) (hw : Clean sep w) :
    joined sep v ++ [sep] <+: joined sep w ++ [sep] ↔ v <+: w := by
  -- the separator opens one more component, which is empty
  have hempty : joined sep w ++ [sep] = joined sep (w ++ [[]]) := by simp
  rw [hempty, joined_prefix_iff hv hw.snoc]
  constructor
  · rintro ⟨d, rest, h⟩
    rcases List.eq_nil_or_concat rest with rfl | ⟨rest, e, rfl⟩
    · exact ⟨[], by rw [List.append_nil, (List.append_inj' h rfl).1]⟩
    · rw [List.concat_eq_append, ← List.cons_append, ← List.append_assoc] at h
      exact ⟨d :: rest, (List.append_inj' h rfl).1.symm⟩
  · rintro ⟨rest, rfl⟩
    cases rest with
    | nil => exact ⟨[], [], by simp⟩
    | cons d rest => exact ⟨d, rest ++ [[]], by simp⟩

theorem joined_inj (hv : Clean sep v) (hw : Clean sep w) : joined sep v = joined sep w ↔ v = w := by
  constructor
  · intro h
    have hvw : v <+: w := (closed_prefix_iff hv hw).mp (h ▸ List.prefix_rfl)
    have hwv : w <+: v := (closed_prefix_iff hw hv).mp (h ▸ List.prefix_rfl)
    exact hvw.eq_of_length_le hwv.length_le
  · rintro rfl
    rfl

/-- A part of a word that ends where a component does is one. -/
theorem component_eq (hc : sep ∉ c) (hx : sep ∉ x) (h : c ++ joined sep v = x ++ y)
    (hy : y = [] ∨ y.head? = some sep) : c = x := by
  rcases hy with rfl | hy
  · rw [List.append_nil] at h
    cases v with
    | nil => simpa using h
    | cons d v => exact absurd (h ▸ by simp) hx
  · obtain ⟨y, rfl⟩ := List.head?_eq_some_iff.mp hy
    have hbegin : x ++ sep :: y <+: c ++ joined sep v := ⟨[], by rw [h, List.append_nil]⟩
    exact ((component_prefix_iff hx hc).mp hbegin).1.symm

/-- What two words with different first components have in common behind the first separator lies
inside these components. -/
theorem common_of_ne {y' : List α} (hc : sep ∉ c) (hd : sep ∉ d) (hne : c ≠ d)
    (h : c ++ joined sep v = x ++ y) (h' : d ++ joined sep w = x ++ y') :
    sep ∉ x ∧ ¬((y = [] ∨ y.head? = some sep) ∧ (y' = [] ∨ y'.head? = some sep)) := by
  have hx : sep ∉ x := by
    intro hmem
    obtain ⟨x₁, x₂, rfl, hx₁⟩ := List.eq_append_cons_of_mem hmem
    rw [List.append_assoc] at h h'
    exact hne ((component_eq hc hx₁ h (.inr rfl)).trans (component_eq hd hx₁ h' (.inr rfl)).symm)
  refine ⟨hx, ?_⟩
  rintro ⟨hy, hy'⟩
  exact hne ((component_eq hc hx h hy).trans (component_eq hd hx h' hy').symm)

/-- A word is cut in front of a separator between two of its components. -/
theorem cut_joined (hv : Clean sep v) (h : x ++ sep :: y = joined sep v) :
    ∃ v₁ v₂, v = v₁ ++ v₂ ∧ x = joined sep v₁ ∧ sep :: y = joined sep v₂ := by
  induction v generalizing x with
  | nil => simp at h
  | cons c v ih =>
    cases x with
    | nil => exact ⟨[], c :: v, rfl, rfl, h⟩
    | cons a x =>
      rw [joined_cons, List.cons_append] at h
      obtain ⟨rfl, h⟩ := List.cons.inj h
      rcases List.append_eq_append_iff.mp h with ⟨t, rfl, ht⟩ | ⟨t, rfl, ht⟩
      · -- the cut lies in the component `c`, where there is no separator
        cases t with
        | nil => exact ⟨[x], v, by simp, by simp, ht⟩
        | cons b t =>
          obtain ⟨rfl, -⟩ := List.cons.inj ht
          exact absurd (by simp) hv.head
      · obtain ⟨v₁, v₂, rfl, rfl, hy⟩ := ih hv.tail ht.symm
        exact ⟨c :: v₁, v₂, rfl, rfl, hy⟩

/-! ## Words in order -/

section Order

variable [LinearOrder α] {a b : α} {u z : List α}

theorem cons_le_cons_iff : a :: x ≤ b :: y ↔ a < b ∨ a = b ∧ x ≤ y := by
  rw [← not_lt, List.cons_lt_cons_iff, ← not_lt]
  constructor
  · intro h
    rcases lt_trichotomy a b with hl | he | hg
    · exact .inl hl
    · exact .inr ⟨he, fun hlt => h (.inr ⟨he.symm, hlt⟩)⟩
    · exact absurd (.inl hg) h
  · rintro (hl | ⟨rfl, h⟩) (hg | ⟨he, hlt⟩)
    · exact lt_asymm hl hg
    · exact hl.ne he.symm
    · exact lt_irrefl _ hg
    · exact h hlt

theorem le_append : x ≤ x ++ y := by
  induction x with
  | nil =>
    rw [← not_lt]
    exact List.not_lt_nil _
  | cons a x ih => exact cons_le_cons_iff.mpr (.inr ⟨rfl, ih⟩)

/-- A prefix of two words is one of the words between them. -/
theorem prefix_of_between (hxy : x ≤ y) (hyz : y ≤ z) (hx : u <+: x) (hz : u <+: z) : u <+: y := by
  induction u generalizing x y z with
  | nil => exact List.nil_prefix
  | cons a u ih =>
    obtain ⟨x, rfl⟩ := hx
    obtain ⟨z, rfl⟩ := hz
    cases y with
    | nil => exact absurd (List.nil_lt_cons a (u ++ x)) (not_lt.mpr hxy)
    | cons b y =>
      rw [List.cons_append, cons_le_cons_iff] at hxy hyz
      rcases hxy with hab | ⟨rfl, hxy⟩
      · rcases hyz with hba | ⟨rfl, -⟩
        · exact absurd hab (lt_asymm hba)
        · exact absurd hab (lt_irrefl _)
      · rcases hyz with hba | ⟨-, hyz⟩
        · exact absurd hba (lt_irrefl _)
        · have hu := ih hxy hyz (List.prefix_append u x) (List.prefix_append u z)
          exact List.cons_prefix_cons.mpr ⟨rfl, hu⟩

end Order

end Components
