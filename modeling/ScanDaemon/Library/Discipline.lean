import Mathlib.Data.Multiset.AddSub
import Mathlib.Data.List.Infix

/-! # Queues and stacks as sequences of accesses

A container is described by the items that were put into it and taken out of
it, in the order of the accesses. A queue hands out a prefix of what it was
given. A stack hands out the item of the last put that has not been taken, so
that puts and takes are nested like brackets.
-/

namespace Interleave

/-- An access to a container. -/
inductive Access (T : Type*)
  | put (x : T)
  | take (x : T)
  deriving DecidableEq

namespace Access

variable {T : Type*} {x : T} {es fs : List (Access T)} {c : List T}

/-- The items that were put, first one first. -/
def puts : List (Access T) → List T
  | [] => []
  | .put x :: es => x :: puts es
  | .take _ :: es => puts es

/-- The items that were taken, first one first. -/
def takes : List (Access T) → List T
  | [] => []
  | .put _ :: es => takes es
  | .take x :: es => x :: takes es

@[simp] theorem puts_append : puts (es ++ fs) = puts es ++ puts fs := by
  induction es with
  | nil => rfl
  | cons e es ih => cases e <;> simp [puts, ih]

@[simp] theorem takes_append : takes (es ++ fs) = takes es ++ takes fs := by
  induction es with
  | nil => rfl
  | cons e es ih => cases e <;> simp [takes, ih]

/-- Every item that is put is taken again, the last one first. -/
inductive Nested : List (Access T) → Prop where

  | nil : Nested []

  | wrap {x : T} {es fs : List (Access T)} : Nested es → Nested fs →
      Nested (.put x :: es ++ .take x :: fs)

theorem Nested.append (h : Nested es) (h' : Nested fs) : Nested (es ++ fs) := by
  induction h with
  | nil => exact h'
  | @wrap x es gs he _ _ ih =>
    have hw := he.wrap (x := x) ih
    rw [List.append_assoc, List.cons_append]
    exact hw

/-- Whatever is taken is the item of the last put that has not been taken. -/
def Lifo (es : List (Access T)) : Prop :=
  ∀ pre x post, es = pre ++ .take x :: post →
    ∃ before mid, pre = before ++ .put x :: mid ∧ Nested mid

theorem lifo_nil : Lifo ([] : List (Access T)) := by
  intro pre x post h
  simp at h

theorem Lifo.append_put (h : Lifo es) : Lifo (es ++ [.put x]) := by
  intro pre y post he
  rcases List.eq_nil_or_concat post with rfl | ⟨post', e, rfl⟩
  · have hlast := (List.append_inj' he rfl).2
    cases hlast
  · rw [List.concat_eq_append, ← List.cons_append, ← List.append_assoc] at he
    exact h pre y post' (List.append_inj' he rfl).1

theorem Lifo.append_take {before mid : List (Access T)} (h : Lifo es)
    (he : es = before ++ .put x :: mid) (hm : Nested mid) : Lifo (es ++ [.take x]) := by
  intro pre y post hs
  rcases List.eq_nil_or_concat post with rfl | ⟨post', e, rfl⟩
  · obtain ⟨rfl, hlast⟩ := List.append_inj' hs rfl
    cases hlast
    exact ⟨before, mid, he, hm⟩
  · rw [List.concat_eq_append, ← List.cons_append, ← List.append_assoc] at hs
    exact h pre y post' (List.append_inj' hs rfl).1

/-- The accesses leave the given items on the stack, the newest one last. -/
inductive Leaves : List (Access T) → List T → Prop where

  | nested {es : List (Access T)} : Nested es → Leaves es []

  | put {x : T} {es fs : List (Access T)} {c : List T} : Leaves es c → Nested fs →
      Leaves (es ++ .put x :: fs) (c ++ [x])

theorem Leaves.append (h : Leaves es c) (hn : Nested fs) : Leaves (es ++ fs) c := by
  cases h with
  | nested he => exact .nested (he.append hn)
  | put h hm =>
    rw [List.append_assoc, List.cons_append]
    exact .put h (hm.append hn)

theorem Leaves.push (h : Leaves es c) : Leaves (es ++ [.put x]) (c ++ [x]) := .put h .nil

/-- The newest item on the stack is that of the last put that has not been taken. -/
theorem Leaves.pop (h : Leaves es (c ++ [x])) :
    (∃ before mid, es = before ++ .put x :: mid ∧ Nested mid) ∧ Leaves (es ++ [.take x]) c := by
  generalize hc : c ++ [x] = l at h
  cases h with
  | nested => simp at hc
  | @put y before mid c' hb hm =>
    obtain ⟨rfl, hy⟩ := List.append_inj' hc rfl
    obtain rfl : x = y := by simpa using hy
    refine ⟨⟨before, mid, rfl, hm⟩, ?_⟩
    have hblock := hm.wrap (x := x) Nested.nil
    rw [List.append_assoc]
    exact hb.append hblock

end Access

end Interleave
