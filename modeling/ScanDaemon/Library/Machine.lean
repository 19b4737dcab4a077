import Mathlib.Algebra.BigOperators.Group.Finset.Basic
import Mathlib.Algebra.Order.BigOperators.Group.Multiset
import Mathlib.Algebra.Order.Ring.Nat
import Mathlib.Tactic
import ScanDaemon.Library.System

/-! # Threads with call stacks over a shared memory

A machine runs a family of threads. Each thread has a stack of frames, and an
atomic step executes the top frame of one thread: it may change the memory and
replaces the frame by a list of frames (none when the call returns, the callee
and the caller when it calls). An execution that is `none` blocks.

Which thread owns a frame matters to few invariants. `frames` forgets it, and
`frames_step` says that a step replaces one frame of the multiset by the frames
it leaves behind.
-/

namespace Interleave

/-- The memory and the call stack of every thread, top frame first. -/
structure Machine (ι σ φ : Type*) where
  shared : σ
  stack : ι → List φ

namespace Machine

variable {ι σ φ ν : Type*} [DecidableEq ι]

/-- Thread `i` executes its top frame, with `x` supplied by the outside world. -/
def step (exec : σ → ν → φ → Option (σ × List φ)) (m : Machine ι σ φ) (i : ι) (x : ν) :
    Option (Machine ι σ φ) :=
  match m.stack i with
  | [] => none
  | f :: rest => (exec m.shared x f).map fun r =>
      ⟨r.1, Function.update m.stack i (r.2 ++ rest)⟩

/-- The frame that thread `i` executes next. -/
def top (m : Machine ι σ φ) (i : ι) : Option φ := (m.stack i).head?

omit [DecidableEq ι] in
theorem top_of_stack {m : Machine ι σ φ} {i : ι} {f : φ} {rest : List φ}
    (h : m.stack i = f :: rest) : m.top i = some f := by rw [top, h, List.head?_cons]

variable {exec : σ → ν → φ → Option (σ × List φ)} {m m' : Machine ι σ φ} {i : ι} {x : ν}

theorem step_eq_some : m.step exec i x = some m' ↔
    ∃ f rest σ' fs, m.stack i = f :: rest ∧ exec m.shared x f = some (σ', fs) ∧
      m' = ⟨σ', Function.update m.stack i (fs ++ rest)⟩ := by
  unfold step
  cases hs : m.stack i with
  | nil => simp
  | cons f rest =>
    simp only [Option.map_eq_some_iff, List.cons.injEq]
    constructor
    · rintro ⟨⟨σ', fs⟩, he, rfl⟩
      exact ⟨f, rest, σ', fs, ⟨rfl, rfl⟩, he, rfl⟩
    · rintro ⟨_, _, σ', fs, ⟨rfl, rfl⟩, he, rfl⟩
      exact ⟨(σ', fs), he, rfl⟩

theorem exec_of_step_eq_none {f : φ} {rest : List φ} (h : m.step exec i x = none)
    (hf : m.stack i = f :: rest) : exec m.shared x f = none := by
  simpa [step, hf] using h

section Frames

variable [Fintype ι]

/-- All frames of all threads. -/
def frames (m : Machine ι σ φ) : Multiset φ := ∑ i, (m.stack i : Multiset φ)

omit [DecidableEq ι] in
theorem mem_frames {f : φ} : f ∈ m.frames ↔ ∃ i, f ∈ m.stack i := by
  simp [frames, Multiset.mem_sum]

omit [DecidableEq ι] in
theorem mem_frames_of_top {f : φ} (h : m.top i = some f) : f ∈ m.frames :=
  mem_frames.mpr ⟨i, List.mem_of_mem_head? h⟩

/-- A step replaces the top frame of its thread, in the stack and among all frames. -/
theorem frames_step (h : m.step exec i x = some m') :
    ∃ f rest fs R, m.stack i = f :: rest ∧ exec m.shared x f = some (m'.shared, fs) ∧
      m'.stack = Function.update m.stack i (fs ++ rest) ∧
      m.frames = f ::ₘ R ∧ m'.frames = (fs : Multiset φ) + R := by
  obtain ⟨f, rest, σ', fs, hf, he, rfl⟩ := step_eq_some.mp h
  refine ⟨f, rest, fs, (rest : Multiset φ) + ∑ j ∈ Finset.univ.erase i, (m.stack j : Multiset φ),
    hf, he, rfl, ?_, ?_⟩
  · rw [frames, ← Finset.add_sum_erase _ _ (Finset.mem_univ i), hf, ← Multiset.cons_coe,
      Multiset.cons_add]
  · have ho : ∑ j ∈ Finset.univ.erase i,
          (Function.update m.stack i (fs ++ rest) j : Multiset φ) =
        ∑ j ∈ Finset.univ.erase i, (m.stack j : Multiset φ) :=
      Finset.sum_congr rfl fun j hj => by
        rw [Function.update_of_ne (Finset.ne_of_mem_erase hj)]
    rw [frames, ← Finset.add_sum_erase _ _ (Finset.mem_univ i)]
    simp only [ho, Function.update_self, ← Multiset.coe_add, add_assoc]

/-- A property of the single frames is invariant when executing a frame keeps it. -/
theorem frames_invariant {P : φ → Prop} (h : m.step exec i x = some m')
    (hP : ∀ f ∈ m.frames, P f)
    (hexec : ∀ f fs, P f → exec m.shared x f = some (m'.shared, fs) → ∀ g ∈ fs, P g) :
    ∀ f ∈ m'.frames, P f := by
  obtain ⟨f, rest, fs, R, -, he, -, hF, hF'⟩ := frames_step h
  rw [hF] at hP
  rw [hF']
  intro g hg
  rcases Multiset.mem_add.mp hg with hg | hg
  · exact hexec f fs (hP f (Multiset.mem_cons_self _ _)) he g hg
  · exact hP g (Multiset.mem_cons_of_mem hg)

end Frames

end Machine

/-! ## Weights

Quantities that are spread over the frames of a machine: the number of frames
of a kind, or the work that the frames still have to do.
-/

section Weight

variable {φ M : Type*} [AddCommMonoid M] {w v : φ → M} {f : φ} {F G : Multiset φ}

/-- The sum of the weights of all frames. -/
def weigh (w : φ → M) (F : Multiset φ) : M := (F.map w).sum

@[simp] theorem weigh_zero : weigh w 0 = 0 := by simp [weigh]

@[simp] theorem weigh_cons : weigh w (f ::ₘ F) = w f + weigh w F := by simp [weigh]

@[simp] theorem weigh_add : weigh w (F + G) = weigh w F + weigh w G := by simp [weigh]

@[simp] theorem weigh_singleton : weigh w {f} = w f := by simp [weigh]

@[simp] theorem weigh_coe_cons {l : List φ} :
    weigh w ((f :: l : List φ) : Multiset φ) = w f + weigh w (l : Multiset φ) := by simp [weigh]

theorem weigh_coe (l : List φ) : weigh w (l : Multiset φ) = (l.map w).sum := by simp [weigh]

theorem weigh_frames {ι σ : Type*} [Fintype ι] {m : Machine ι σ φ} :
    weigh w m.frames = ∑ i, ((m.stack i).map w).sum := by
  unfold Machine.frames
  induction (Finset.univ : Finset ι) using Finset.cons_induction with
  | empty => simp
  | cons i s hi ih => rw [Finset.sum_cons, Finset.sum_cons, weigh_add, ih, weigh_coe]

theorem weigh_eq_zero (h : ∀ f ∈ F, w f = 0) : weigh w F = 0 :=
  Multiset.sum_eq_zero fun x hx => by
    obtain ⟨f, hf, rfl⟩ := Multiset.mem_map.mp hx
    exact h f hf

end Weight

section Count

variable {φ : Type*} {w : φ → ℕ} {f : φ} {F : Multiset φ}

theorem le_weigh (h : f ∈ F) : w f ≤ weigh w F :=
  Multiset.le_sum_of_mem (Multiset.mem_map_of_mem w h)

theorem weigh_eq_zero_iff : weigh w F = 0 ↔ ∀ g ∈ F, w g = 0 :=
  ⟨fun h _ hg => Nat.le_zero.mp (h ▸ le_weigh hg), weigh_eq_zero⟩

theorem exists_of_weigh_pos (h : 0 < weigh w F) : ∃ f ∈ F, 0 < w f := by
  by_contra hn
  push Not at hn
  exact h.ne' (weigh_eq_zero fun g hg => Nat.le_zero.mp (hn g hg))

theorem weigh_le_weigh {v : φ → ℕ} (h : ∀ f ∈ F, w f ≤ v f) : weigh w F ≤ weigh v F :=
  Multiset.sum_map_le_sum_map _ _ h

end Count

end Interleave
