import ScanDaemon.Library.System
import Mathlib.Algebra.BigOperators.Group.Finset.Piecewise
import Mathlib.Algebra.Order.BigOperators.Group.Finset
import Mathlib.Data.Fintype.Basic
import Mathlib.Data.Fintype.BigOperators
import Mathlib.Logic.Function.Basic
import Mathlib.Tactic.Common

/-! # Monitors with one condition variable

Threads call operations on a shared state. A call takes the mutex and executes
its critical section, or waits on the condition variable and starts over when
it is woken. A critical section may ask for a notification, which is sent after
the mutex has been released; a notification of one thread wakes an arbitrary
one of those that wait.
-/

namespace Interleave

/-- What a critical section asks for when it is left. -/
inductive Notice | one | all
  deriving DecidableEq

/-- Where a thread is in a call of the type `C`. -/
inductive Status (C : Type*)
  | outside
  /-- about to take the mutex -/
  | ready (c : C)
  | waiting (c : C)
  /-- out of the mutex and about to notify -/
  | notifying (c : C) (n : Notice)

namespace Status

variable {C : Type*}

/-- A woken thread takes the mutex again. -/
def woken : Status C → Status C
  | .waiting c => .ready c
  | st => st

def isWaiting : Status C → Bool
  | .waiting _ => true
  | _ => false

/-- The thread neither waits nor has to notify. -/
def isFree : Status C → Bool
  | .outside | .ready _ => true
  | .waiting _ | .notifying _ _ => false

theorem isFree_of_ne {st : Status C} (hw : ∀ c, st ≠ .waiting c) (hn : ∀ c n, st ≠ .notifying c n) :
    st.isFree = true := by
  cases st with
  | outside | ready c => rfl
  | waiting c => exact absurd rfl (hw c)
  | notifying c n => exact absurd rfl (hn c n)

/-- The call that a thread waits in, or starts over. -/
def pending : Status C → Option C
  | .waiting c | .ready c => some c
  | .outside | .notifying _ _ => none

/-- Where a thread gets by entering a call with the given outcome. -/
def entered {S : Type*} (c : C) : Option (S × Option Notice) → Status C
  | none => .waiting c
  | some (_, none) => .outside
  | some (_, some n) => .notifying c n

/-- Bounds what a thread can still do here until its next call is over: it waits, or it notifies
another thread, which may wait again. -/
def effort : Status C → ℕ
  | .waiting _ => 0
  | .outside | .ready _ => 1
  | .notifying _ _ => 3

@[simp] theorem pending_woken (st : Status C) : st.woken.pending = st.pending := by
  cases st <;> rfl

theorem effort_le (st : Status C) : st.effort ≤ 3 := by
  cases st <;> simp [effort]

end Status

/-- The initial state and the critical sections; `none` is a call that has to wait. -/
structure Monitor (S C : Type*) where
  init : S
  body : C → S → Option (S × Option Notice)

namespace Monitor

structure State (ι S C : Type*) where
  shared : S
  status : ι → Status C

inductive Act (ι C : Type*)
  | call (c : C)
  | enter
  /-- wake the thread that the system has picked, or nobody -/
  | notify (target : Option ι)
  /-- a wake-up without a notification -/
  | wake

variable {ι S C : Type*} [DecidableEq ι] [Fintype ι]

variable (M : Monitor S C)

def step (m : State ι S C) (a : ι × Act ι C) : Option (State ι S C) :=
  match m.status a.1, a.2 with
  | .outside, .call c => some { m with status := Function.update m.status a.1 (.ready c) }
  | .ready c, .enter => match M.body c m.shared with
    | none => some { m with status := Function.update m.status a.1 (.waiting c) }
    | some (s, none) => some ⟨s, Function.update m.status a.1 .outside⟩
    | some (s, some n) => some ⟨s, Function.update m.status a.1 (.notifying c n)⟩
  | .notifying _ .one, .notify (some j) => match m.status j with
    | .waiting d => some { m with
        status := Function.update (Function.update m.status a.1 .outside) j (.ready d) }
    | _ => none
  | .notifying _ .one, .notify none =>
    if ∀ j, (m.status j).isWaiting = false then
      some { m with status := Function.update m.status a.1 .outside }
    else none
  | .notifying _ .all, .notify none =>
    some { m with status := Function.update (Status.woken ∘ m.status) a.1 .outside }
  | .waiting c, .wake => some { m with status := Function.update m.status a.1 (.ready c) }
  | _, _ => none

/-- The monitor with the threads of `ι`, all outside at the beginning. -/
def system (ι : Type*) [DecidableEq ι] [Fintype ι] : System (State ι S C) (ι × Act ι C) where
  init := ⟨M.init, fun _ => .outside⟩
  step := M.step

/-- No thread is awake or about to notify. -/
def Asleep (m : State ι S C) : Prop :=
  ∀ i, m.status i = .outside ∨ ∃ c, m.status i = .waiting c

variable {M} {m m' : State ι S C} {i : ι} {act : Act ι C}

/-- What a thread can do. -/
inductive Move (M : Monitor S C) (m : State ι S C) (i : ι) : Act ι C → State ι S C → Prop
  | call {c : C} : m.status i = .outside →
      Move M m i (.call c) { m with status := Function.update m.status i (.ready c) }
  | wait {c : C} : m.status i = .ready c → M.body c m.shared = none →
      Move M m i .enter { m with status := Function.update m.status i (.waiting c) }
  | leave {c : C} {s : S} : m.status i = .ready c → M.body c m.shared = some (s, none) →
      Move M m i .enter ⟨s, Function.update m.status i .outside⟩
  | announce {c : C} {s : S} {n : Notice} : m.status i = .ready c →
      M.body c m.shared = some (s, some n) →
      Move M m i .enter ⟨s, Function.update m.status i (.notifying c n)⟩
  | notify_one {c d : C} {j : ι} : m.status i = .notifying c .one → m.status j = .waiting d →
      Move M m i (.notify (some j)) { m with
        status := Function.update (Function.update m.status i .outside) j (.ready d) }
  | notify_nobody {c : C} : m.status i = .notifying c .one →
      (∀ j d, m.status j ≠ .waiting d) →
      Move M m i (.notify none) { m with status := Function.update m.status i .outside }
  | notify_all {c : C} : m.status i = .notifying c .all →
      Move M m i (.notify none)
        { m with status := Function.update (Status.woken ∘ m.status) i .outside }
  | wake {c : C} : m.status i = .waiting c →
      Move M m i .wake { m with status := Function.update m.status i (.ready c) }

theorem move_of_step (h : M.step m (i, act) = some m') : Move M m i act m' := by
  unfold step at h
  split at h
  · next hst hact => cases hact; cases h; exact .call hst
  · next c hst hact =>
    cases hact
    split at h
    · next hb => cases h; exact .wait hst hb
    · next hb => cases h; exact .leave hst hb
    · next hb => cases h; exact .announce hst hb
  · next hst hact =>
    cases hact
    split at h
    · next hd => cases h; exact .notify_one hst hd
    · cases h
  · next hst hact =>
    cases hact
    split_ifs at h with hn
    cases h
    refine .notify_nobody hst fun j d hd => ?_
    have hj := hn j
    rw [hd] at hj
    exact Bool.noConfusion hj
  · next hst hact => cases hact; cases h; exact .notify_all hst
  · next hst hact => cases hact; cases h; exact .wake hst
  · cases h

omit [Fintype ι] in
/-- A step executes at most one critical section. -/
theorem Move.shared_eq (h : Move M m i act m') :
    m'.shared = m.shared ∨
      ∃ c n, m.status i = .ready c ∧ M.body c m.shared = some (m'.shared, n) := by
  cases h with
  | leave hi hb => exact .inr ⟨_, _, hi, hb⟩
  | announce hi hb => exact .inr ⟨_, _, hi, hb⟩
  | _ => exact .inl rfl

/-- What every critical section keeps holds of the shared state in every run. -/
theorem shared_of_reach {P : S → Prop} {ok : State ι S C → ι × Act ι C → Prop}
    (h : (M.system ι).Reach ok m) (h₀ : P M.init)
    (hbody : ∀ c s s' n, P s → M.body c s = some (s', n) → P s') : P m.shared := by
  refine h.invariant (P := fun m => P m.shared) h₀ fun m a m' _ _ hs hp => ?_
  rcases (move_of_step hs).shared_eq with he | ⟨c, n, -, hb⟩
  · exact he ▸ hp
  · exact hbody c _ _ n hp hb

/-! ## Calls as a whole -/

/-- Thread `i` enters its call, if it makes one. -/
def enter (M : Monitor S C) (m : State ι S C) (i : ι) : Option C → State ι S C
  | none => m
  | some c => ⟨((M.body c m.shared).map Prod.fst).getD m.shared,
      Function.update m.status i (.entered c (M.body c m.shared))⟩

omit [Fintype ι] in
@[simp] theorem enter_none : M.enter m i none = m := rfl

theorem step_enter {c : C} (hi : m.status i = .ready c) :
    M.step m (i, .enter) = some (M.enter m i (some c)) := by
  simp only [step, hi, enter]
  rcases M.body c m.shared with _ | ⟨s, _ | n⟩ <;> rfl

/-- Entering a call takes at most two steps, of which the last one is the critical section. -/
theorem reach_enter {ok : State ι S C → ι × Act ι C → Prop} {call : Option C}
    (h : (M.system ι).Reach ok m) (hcall : ∀ c m, ok m (i, .call c))
    (henter : ∀ m, ok m (i, .enter))
    (hi : ∀ c ∈ call, m.status i = .outside ∨ m.status i = .ready c) :
    (M.system ι).Reach ok (M.enter m i call) := by
  cases call with
  | none => exact h
  | some c =>
    rcases hi c rfl with hi | hi
    · have hc : M.step m (i, .call c) =
          some { m with status := Function.update m.status i (.ready c) } := by
        simp only [step, hi]
      have hr := System.Reach.step (System.Reach.step h (hcall c m) hc) (henter _)
        (step_enter (Function.update_self ..))
      simpa only [enter, Function.update_idem] using hr
    · exact h.step (henter m) (step_enter hi)

omit [Fintype ι] in
/-- A thread that is in a call after another one has entered was in it before, or has to wait. -/
theorem pending_enter {call : Option C} {j : ι} {c : C}
    (h : ((M.enter m i call).status j).pending = some c) :
    ((m.status j).pending = some c ∧ (j ≠ i ∨ call = none)) ∨
      j = i ∧ call = some c ∧ M.body c m.shared = none := by
  cases call with
  | none => exact .inl ⟨h, .inr rfl⟩
  | some d =>
    rcases eq_or_ne j i with rfl | hji
    · simp only [enter, Function.update_self] at h
      rcases hb : M.body d m.shared with _ | ⟨s, _ | n⟩ <;> rw [hb] at h <;> cases h
      exact .inr ⟨rfl, rfl, hb⟩
    · simp only [enter, Function.update_of_ne hji] at h
      exact .inl ⟨h, .inl hji⟩

/-- Only a thread that has to notify does. -/
theorem notifying_of_notify {t : Option ι} (h : M.step m (i, .notify t) = some m') :
    ∃ c n, m.status i = .notifying c n := by
  cases move_of_step h with
  | notify_one hi | notify_nobody hi | notify_all hi => exact ⟨_, _, hi⟩

/-- A notification leaves the shared state alone, and every call that it does not end. -/
theorem of_notify {t : Option ι} (h : M.step m (i, .notify t) = some m') :
    m'.shared = m.shared ∧ ∀ j, (m'.status j).pending = (m.status j).pending := by
  cases move_of_step h with
  | @notify_one c d k hi hk =>
    refine ⟨rfl, fun j => ?_⟩
    rcases eq_or_ne j k with rfl | hjk
    · simp [hk, Status.pending]
    · rcases eq_or_ne j i with rfl | hji
      · simp [Function.update_of_ne hjk, hi, Status.pending]
      · simp [Function.update_of_ne hjk, Function.update_of_ne hji]
  | @notify_nobody c hi =>
    refine ⟨rfl, fun j => ?_⟩
    rcases eq_or_ne j i with rfl | hji
    · simp [hi, Status.pending]
    · simp [Function.update_of_ne hji]
  | @notify_all c hi =>
    refine ⟨rfl, fun j => ?_⟩
    rcases eq_or_ne j i with rfl | hji
    · simp [hi, Status.pending]
    · simp [Function.update_of_ne hji]

theorem of_wake (h : M.step m (i, .wake) = some m') :
    m'.shared = m.shared ∧ ∀ j, (m'.status j).pending = (m.status j).pending := by
  cases move_of_step h with
  | @wake c hi =>
    refine ⟨rfl, fun j => ?_⟩
    rcases eq_or_ne j i with rfl | hji
    · simp [hi, Status.pending]
    · simp [Function.update_of_ne hji]

/-! ## Records -/

section Recorded

variable {H : Type*} (note : C → S → H → H) (h₀ : H)

/-- A monitor that keeps a record of its critical sections beside the shared state. -/
def recorded (M : Monitor S C) : Monitor (S × H) C where
  init := (M.init, h₀)
  body c s := (M.body c s.1).map fun r => ((r.1, note c s.1 s.2), r.2)

end Recorded

/-! ## Counting threads -/

/-- The sum of the weights of the threads. -/
def tally (w : Status C → ℕ) (st : ι → Status C) : ℕ := ∑ j, w (st j)

variable {w : Status C → ℕ} {st : ι → Status C} {new : Status C}

variable (w st i new) in
theorem tally_update : tally w (Function.update st i new) + w (st i) = tally w st + w new := by
  have hi : i ∈ (Finset.univ : Finset ι) := Finset.mem_univ i
  have hrest : ∑ j ∈ Finset.univ.erase i, w (Function.update st i new j) =
      ∑ j ∈ Finset.univ.erase i, w (st j) := by
    refine Finset.sum_congr rfl fun j hj => ?_
    rw [Function.update_of_ne (Finset.ne_of_mem_erase hj)]
  unfold tally
  rw [← Finset.add_sum_erase _ _ hi, ← Finset.add_sum_erase _ (fun j => w (st j)) hi, hrest,
    Function.update_self]
  omega

/-- The effort that is left at a monitor. -/
def effort (m : State ι S C) : ℕ := tally Status.effort m.status

theorem effort_notify {t : Option ι} {c : C} (hi : m.status i = .notifying c .one)
    (h : M.step m (i, .notify t) = some m') : effort m' + 1 ≤ effort m := by
  have hleft := tally_update i Status.effort m.status .outside
  rw [hi] at hleft
  unfold effort
  cases move_of_step h with
  | @notify_one c d j hi' hj =>
    have hne : j ≠ i := by
      rintro rfl
      rw [hi'] at hj
      cases hj
    have hwoken := tally_update j Status.effort (Function.update m.status i .outside) (.ready d)
    rw [Function.update_of_ne hne, hj] at hwoken
    simp only [Status.effort] at hleft hwoken ⊢
    omega
  | notify_nobody =>
    simp only [Status.effort] at hleft ⊢
    omega
  | notify_all hi' =>
    rw [hi] at hi'
    cases hi'

theorem effort_wake (h : M.step m (i, .wake) = some m') : effort m' = effort m + 1 := by
  unfold effort
  cases move_of_step h with
  | @wake c hi =>
    have hwoken := tally_update i Status.effort m.status (.ready c)
    rw [hi] at hwoken
    simp only [Status.effort] at hwoken ⊢
    omega

omit [DecidableEq ι] in
theorem effort_le_card : effort m ≤ 3 * Fintype.card ι := by
  unfold effort tally
  calc ∑ j, (m.status j).effort
      ≤ ∑ _j : ι, 3 := Finset.sum_le_sum fun j _ => Status.effort_le _
    _ = 3 * Fintype.card ι := by simp [mul_comm]

theorem effort_of_isFree {st : Status C} (h : st.isFree = true) : st.effort = 1 := by
  cases st <;> first | rfl | cases h

/-- A thread that enters a call may come to notify. -/
theorem effort_enter {call : Option C} (hi : (m.status i).isFree = true) :
    effort (M.enter m i call) ≤ effort m + 2 := by
  cases call with
  | none => exact Nat.le_add_right _ _
  | some c =>
    have hleft := tally_update i Status.effort m.status (.entered c (M.body c m.shared))
    have hle := Status.effort_le (.entered c (M.body c m.shared))
    rw [effort_of_isFree hi] at hleft
    simp only [effort, enter]
    omega

/-- A call that asks for no notification adds nothing to the effort. -/
theorem effort_enter_silent {call : Option C} (hi : (m.status i).isFree = true)
    (hc : ∀ c ∈ call, ∃ s, M.body c m.shared = some (s, none)) :
    effort (M.enter m i call) = effort m := by
  cases call with
  | none => rfl
  | some c =>
    obtain ⟨s, hb⟩ := hc c rfl
    have hleft := tally_update i Status.effort m.status .outside
    rw [effort_of_isFree hi] at hleft
    simp only [effort, enter, hb, Status.entered]
    simp only [Status.effort] at hleft
    omega

/-- A call that has to wait takes its effort away. -/
theorem effort_enter_blocked {c : C} (hi : (m.status i).isFree = true)
    (hb : M.body c m.shared = none) : effort (M.enter m i (some c)) + 1 = effort m := by
  have hleft := tally_update i Status.effort m.status (.waiting c)
  rw [effort_of_isFree hi] at hleft
  simp only [effort, enter, hb, Status.entered]
  simp only [Status.effort] at hleft
  omega

omit [DecidableEq ι] in
theorem tally_eq_zero (h : ∀ j, w (st j) = 0) : tally w st = 0 :=
  Finset.sum_eq_zero fun j _ => h j

end Monitor

end Interleave
