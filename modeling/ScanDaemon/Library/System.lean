import Mathlib.Algebra.Order.Ring.Nat
import Mathlib.Data.Option.Basic
import Mathlib.Logic.Relation

/-! # Transition systems and their runs

A system has an initial state and a partial step function. `Reach ok` collects
the states reached by runs all of whose steps satisfy `ok`, so that a property
may be stated for every run or for the runs that meet a side condition.
-/

namespace Interleave

/-- A transition system; a step that cannot be taken is `none`. -/
structure System (S A : Type*) where
  init : S
  step : S → A → Option S

namespace System

variable {S A : Type*} {T : System S A} {ok ok' : S → A → Prop}

/-- The states of the runs all of whose steps satisfy `ok`. -/
inductive Reach (T : System S A) (ok : S → A → Prop) : S → Prop
  | init : Reach T ok T.init
  | step {s s' : S} {a : A} : Reach T ok s → ok s a → T.step s a = some s' → Reach T ok s'

/-- The states of all runs. -/
abbrev Reachable (T : System S A) : S → Prop := T.Reach fun _ _ => True

/-- Execute a list of actions, failing at the first one that is not enabled. -/
def exec (T : System S A) : List A → S → Option S
  | [], s => some s
  | a :: as, s => (T.step s a).bind (exec T as)

theorem Reach.mono {s : S} (h : T.Reach ok s) (hok : ∀ s a, ok s a → ok' s a) :
    T.Reach ok' s := by
  induction h with
  | init => exact .init
  | step _ ha hs ih => exact .step ih (hok _ _ ha) hs

theorem Reach.reachable {s : S} (h : T.Reach ok s) : T.Reachable s :=
  h.mono fun _ _ _ => trivial

/-- An invariant holds initially and is kept by every allowed step from a reached state. -/
theorem Reach.invariant {P : S → Prop} {s : S} (h : T.Reach ok s) (h₀ : P T.init)
    (hstep : ∀ s a s', T.Reach ok s → ok s a → T.step s a = some s' → P s → P s') : P s := by
  induction h with
  | init => exact h₀
  | step hr ha hs ih => exact hstep _ _ _ hr ha hs ih

/-- Each step of a more detailed system is a step of `T` or leaves its state alone. -/
theorem Reach.project {S' A' : Type*} {T' : System S' A'} {ok' : S' → A' → Prop} {g : S' → S}
    {s : S'} (h : T'.Reach ok' s) (h₀ : g T'.init = T.init)
    (hstep : ∀ s a s', T'.step s a = some s' → g s' = g s ∨ ∃ b, T.step (g s) b = some (g s')) :
    T.Reachable (g s) := by
  induction h with
  | init => exact h₀ ▸ .init
  | step _ _ hs ih =>
    rcases hstep _ _ _ hs with he | ⟨b, hb⟩
    · exact he ▸ ih
    · exact .step ih trivial hb

/-- The states that a run can go on to from a given state. -/
abbrev Leads (T : System S A) : S → S → Prop :=
  Relation.ReflTransGen fun s s' => ∃ a, T.step s a = some s'

theorem Reach.leads {s s' : S} (h : T.Reachable s) (hl : T.Leads s s') : T.Reachable s' := by
  induction hl with
  | refl => exact h
  | tail _ hs ih => exact .step ih trivial hs.choose_spec

/-- A property that every step from a reached state keeps holds for the rest of the run. -/
theorem Leads.stable {P : S → Prop} {s s' : S} (hl : T.Leads s s') (h : T.Reachable s)
    (hs : P s) (hstep : ∀ s a s', T.Reachable s → T.step s a = some s' → P s → P s') : P s' := by
  induction hl with
  | refl => exact hs
  | tail hl hst ih => exact hstep _ _ _ (h.leads hl) hst.choose_spec ih

theorem Reach.exec {s s' : S} {as : List A} (h : T.Reachable s)
    (he : T.exec as s = some s') : T.Reachable s' := by
  induction as generalizing s with
  | nil => cases he; exact h
  | cons a as ih =>
    obtain ⟨t, ht, he⟩ := Option.bind_eq_some_iff.mp he
    exact ih (.step h trivial ht) he

/-- A list of actions executed from the initial state ends in a reachable state. -/
theorem reachable_of_exec {s : S} {as : List A} (he : T.exec as T.init = some s) :
    T.Reachable s := Reach.exec .init he

/-- The state at the end of a list of actions, the initial one if an action is not enabled. -/
def run (T : System S A) (as : List A) : S := (T.exec as T.init).getD T.init

theorem exec_eq_run {as : List A} (h : (T.exec as T.init).isSome = true) :
    T.exec as T.init = some (T.run as) := by
  obtain ⟨s, hs⟩ := Option.isSome_iff_exists.mp h
  simp [run, hs]

theorem exec_append {s : S} {as bs : List A} :
    T.exec (as ++ bs) s = (T.exec as s).bind (T.exec bs) := by
  induction as generalizing s with
  | nil => rfl
  | cons a as ih =>
    simp only [List.cons_append, exec]
    cases T.step s a with
    | none => rfl
    | some t => exact ih

theorem leads_of_exec {s s' : S} {as : List A} (h : T.exec as s = some s') : T.Leads s s' := by
  induction as generalizing s with
  | nil => cases h; exact .refl
  | cons a as ih =>
    obtain ⟨t, ht, he⟩ := Option.bind_eq_some_iff.mp h
    exact .head ⟨a, ht⟩ (ih he)

/-- A run that can be executed to its end passes through the states of its prefixes. -/
theorem exec_run {as bs : List A} (h : (T.exec (as ++ bs) T.init).isSome = true) :
    T.exec bs (T.run as) = some (T.run (as ++ bs)) := by
  have he := exec_eq_run h
  rw [exec_append] at he
  obtain ⟨s, hs, hb⟩ := Option.bind_eq_some_iff.mp he
  simpa [run, hs] using hb

theorem reachable_run (T : System S A) (as : List A) : T.Reachable (T.run as) := by
  unfold run
  cases he : T.exec as T.init with
  | none => exact .init
  | some s => exact reachable_of_exec he

/-- Every action of a list, executed from `s` on, satisfies `ok` where it is taken. -/
def Obeys (T : System S A) (ok : S → A → Prop) : List A → S → Prop
  | [], _ => True
  | a :: as, s => ok s a ∧ ∀ s' ∈ T.step s a, Obeys T ok as s'

instance decidableObeys (ok : S → A → Prop) [∀ s a, Decidable (ok s a)] :
    (as : List A) → (s : S) → Decidable (T.Obeys ok as s)
  | [], _ => .isTrue trivial
  | a :: as, s =>
    have : ∀ s', Decidable (T.Obeys ok as s') := fun s' => decidableObeys ok as s'
    inferInstanceAs (Decidable (ok s a ∧ ∀ s' ∈ T.step s a, T.Obeys ok as s'))

theorem Reach.exec_of_obeys {s s' : S} {as : List A} (h : T.Reach ok s) (ho : T.Obeys ok as s)
    (he : T.exec as s = some s') : T.Reach ok s' := by
  induction as generalizing s with
  | nil => cases he; exact h
  | cons a as ih =>
    obtain ⟨t, ht, he⟩ := Option.bind_eq_some_iff.mp he
    exact ih (.step h ho.1 ht) (ho.2 t ht) he

/-- The actions of a run that have to be paid are covered by the work that is left behind, by the
credit that the steps have granted, and by the actions that bring their own. -/
theorem spent_le {paid granting : A → Prop} [DecidablePred paid] [DecidablePred granting]
    {work credit : S → ℕ} {s s' : S} {as : List A}
    (hstep : ∀ s a s', T.Reach ok s → ok s a → T.step s a = some s' →
      (if paid a then 1 else 0) + work s' + credit s ≤
        work s + credit s' + if granting a then 1 else 0)
    (h : T.Reach ok s) (ho : T.Obeys ok as s) (he : T.exec as s = some s') :
    as.countP paid + work s' + credit s ≤ work s + credit s' + as.countP granting := by
  induction as generalizing s with
  | nil => cases he; simp
  | cons a as ih =>
    obtain ⟨t, ht, he⟩ := Option.bind_eq_some_iff.mp he
    have h₁ := hstep s a t h ho.1 ht
    have h₂ := ih (.step h ho.1 ht) (ho.2 t ht) he
    simp only [List.countP_cons, decide_eq_true_eq]
    omega

/-- When each state that is not final has an action of some kind that lowers a measure, actions of
that kind lead to a final state. -/
theorem exists_exec (final : S → Prop) (kind : A → Prop) (measure : S → ℕ)
    (hprogress : ∀ s, T.Reach ok s → ¬final s →
      ∃ a s', kind a ∧ ok s a ∧ T.step s a = some s' ∧ measure s' < measure s)
    {s : S} (h : T.Reach ok s) : ∃ as s', (∀ a ∈ as, kind a) ∧ as.length ≤ measure s ∧
      T.Obeys ok as s ∧ T.exec as s = some s' ∧ final s' := by
  induction hn : measure s using Nat.strong_induction_on generalizing s with
  | _ n ih =>
    by_cases hf : final s
    · exact ⟨[], s, by simp, Nat.zero_le _, trivial, rfl, hf⟩
    obtain ⟨a, t, hk, hok, hst, hlt⟩ := hprogress s h hf
    obtain ⟨as, s', hks, hlen, ho, he, hf'⟩ := ih _ (hn ▸ hlt) (.step h hok hst) rfl
    refine ⟨a :: as, s', List.forall_mem_cons.mpr ⟨hk, hks⟩, ?_, ⟨hok, ?_⟩, ?_, hf'⟩
    · rw [List.length_cons]
      omega
    · rintro t' ht'
      obtain rfl := Option.some.inj (hst.symm.trans ht')
      exact ho
    · rw [exec, hst]
      exact he

/-- A list of actions that obeys `ok` ends in a state of the runs restricted by `ok`. -/
theorem reach_run {as : List A} (ho : T.Obeys ok as T.init) : T.Reach ok (T.run as) := by
  unfold run
  cases he : T.exec as T.init with
  | none => exact .init
  | some s => exact Reach.exec_of_obeys .init ho he

end System

end Interleave
