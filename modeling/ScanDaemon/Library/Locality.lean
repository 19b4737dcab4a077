import Mathlib.Data.Set.Lattice
import Mathlib.Order.CompletePartialOrder
import Mathlib.Tactic.Common

/-! # Actions with footprints

A state is read at keys. An action is local to a region of keys when it changes
nothing outside and what it leaves inside depends on nothing outside. Actions of
several owners whose regions are disjoint may then be interleaved at will: only
the order of each owner's own actions matters.
-/

namespace Locality

variable {S A ι K : Type} {V : K → Type}

/-- The states have the same contents at the keys of `R`. -/
def AgreeOn (read : S → ∀ k, V k) (R : Set K) (s s' : S) : Prop :=
  ∀ k ∈ R, read s k = read s' k

/-- In the states that meet `I`, which `f` keeps, `f` reads and writes in `R` only. -/
structure Local (read : S → ∀ k, V k) (I : S → Prop) (R : Set K) (f : S → S) : Prop where
  keeps : ∀ s, I s → I (f s)
  frame : ∀ s, I s → ∀ k ∉ R, read (f s) k = read s k
  inside : ∀ s s', I s → I s' → AgreeOn read R s s' → AgreeOn read R (f s) (f s')

variable {read : S → ∀ k, V k} {I : S → Prop} {R R' : Set K} {f g : S → S} {s s' s'' : S}

theorem AgreeOn.refl (s : S) : AgreeOn read R s s := fun _ _ => rfl

theorem AgreeOn.symm (h : AgreeOn read R s s') : AgreeOn read R s' s := fun k hk => (h k hk).symm

theorem AgreeOn.trans (h : AgreeOn read R s s') (h' : AgreeOn read R s' s'') :
    AgreeOn read R s s'' := fun k hk => (h k hk).trans (h' k hk)

theorem Local.comp (hf : Local read I R f) (hg : Local read I R g) :
    Local read I R fun s => g (f s) := by
  constructor
  · intro s hs
    exact hg.keeps _ (hf.keeps s hs)
  · intro s hs k hk
    exact (hg.frame _ (hf.keeps s hs) k hk).trans (hf.frame s hs k hk)
  · intro s s' hs hs' h
    exact hg.inside _ _ (hf.keeps s hs) (hf.keeps s' hs') (hf.inside s s' hs hs' h)

/-- An action of another region is not noticed. -/
theorem Local.agree_left (hf : Local read I R' f) (hR : Disjoint R R') (hs : I s)
    (h : AgreeOn read R s s') : AgreeOn read R (f s) s' := by
  intro k hk
  exact (hf.frame s hs k (Set.disjoint_left.mp hR hk)).trans (h k hk)

section Runs

variable [DecidableEq ι] {act : A → S → S} {owner : A → ι} {region : ι → Set K} {l l' : List A}

/-- The state after the actions of a list. -/
def run (act : A → S → S) (l : List A) (s : S) : S := l.foldl (fun s a => act a s) s

@[simp] theorem run_nil : run act [] s = s := rfl

@[simp] theorem run_cons {a : A} : run act (a :: l) s = run act l (act a s) := rfl

/-- At the keys of an owner a run leaves what the owner's own actions leave. -/
theorem run_agree (hR : Pairwise fun i j => Disjoint (region i) (region j))
    (hl : ∀ a ∈ l, Local read I (region (owner a)) (act a)) (i : ι) (hs : I s) (hs' : I s')
    (h : AgreeOn read (region i) s s') :
    AgreeOn read (region i) (run act l s) (run act (l.filter fun a => owner a = i) s') := by
  induction l generalizing s s' with
  | nil => exact h
  | cons a l ih =>
    have ha := hl a List.mem_cons_self
    have hl' : ∀ b ∈ l, Local read I (region (owner b)) (act b) :=
      fun b hb => hl b (List.mem_cons_of_mem _ hb)
    by_cases ho : owner a = i
    · rw [List.filter_cons_of_pos (by simpa using ho), run_cons, run_cons]
      subst ho
      exact ih hl' (ha.keeps s hs) (ha.keeps s' hs') (ha.inside s s' hs hs' h)
    · rw [List.filter_cons_of_neg (by simpa using ho), run_cons]
      exact ih hl' (ha.keeps s hs) hs' (ha.agree_left (hR (Ne.symm ho)) hs h)

omit [DecidableEq ι] in
/-- Outside the regions of its owners a run changes nothing. -/
theorem run_frame (hl : ∀ a ∈ l, Local read I (region (owner a)) (act a)) (hs : I s) {k : K}
    (hk : ∀ a ∈ l, k ∉ region (owner a)) : read (run act l s) k = read s k := by
  induction l generalizing s with
  | nil => rfl
  | cons a l ih =>
    have ha := hl a List.mem_cons_self
    rw [run_cons, ih (fun b hb => hl b (List.mem_cons_of_mem _ hb)) (ha.keeps s hs)
      fun b hb => hk b (List.mem_cons_of_mem _ hb)]
    exact ha.frame s hs k (hk a List.mem_cons_self)

theorem mem_of_filter_eq (h : ∀ i, l.filter (fun a => owner a = i) = l'.filter fun a => owner a = i)
    {a : A} (ha : a ∈ l) : a ∈ l' := by
  have hmem : a ∈ l.filter fun b => owner b = owner a := by simp [ha]
  rw [h] at hmem
  exact (List.mem_filter.mp hmem).1

/-- Two runs in which each owner acts in the same order leave the same contents. -/
theorem run_eq_of_filter_eq (hR : Pairwise fun i j => Disjoint (region i) (region j))
    (hl : ∀ a ∈ l, Local read I (region (owner a)) (act a))
    (h : ∀ i, l.filter (fun a => owner a = i) = l'.filter fun a => owner a = i) (hs : I s) :
    read (run act l s) = read (run act l' s) := by
  have hl' : ∀ a ∈ l', Local read I (region (owner a)) (act a) :=
    fun a ha => hl a (mem_of_filter_eq (fun i => (h i).symm) ha)
  ext k
  by_cases hk : ∃ i, k ∈ region i
  · obtain ⟨i, hk⟩ := hk
    have h₁ := run_agree hR hl i hs hs (.refl s) k hk
    have h₂ := run_agree hR hl' i hs hs (.refl s) k hk
    rw [h₁, h₂, h i]
  · push Not at hk
    rw [run_frame hl hs fun a _ => hk _, run_frame hl' hs fun a _ => hk _]

end Runs

end Locality
