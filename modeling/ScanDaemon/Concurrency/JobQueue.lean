import Mathlib.Tactic

/-! # The job queue

The monitor `JobQueue<T>`: every operation is one critical section. The policy
and the capacity are fixed by the constructor, so they index the type. A thread
that has to wait on the condition variable gets `none`.
-/

namespace ScanDaemon

inductive QueueType | lifo | fifo
  deriving DecidableEq, Repr

inductive SubmitResult | pushed | full | shutdown
  deriving DecidableEq, Repr

/-- The three counters; an unbound one is `none`. -/
structure QueueMetrics where
  submittedTotal : Option ℕ
  submittedFailed : Option ℕ
  queuedNumber : Option ℕ

structure JobQueue (policy : QueueType) (queueSize : ℕ) (T : Type) where
  metrics : QueueMetrics
  container : List T
  stopFlag : Bool

namespace JobQueue

variable {policy : QueueType} {queueSize : ℕ} {T : Type}

/-- The queue that the constructor leaves. -/
def new (metrics : QueueMetrics) : JobQueue policy queueSize T := ⟨metrics, [], false⟩

/-- `submitted_failed->fetch_add(1)` -/
def countFailed (q : JobQueue policy queueSize T) : JobQueue policy queueSize T :=
  { q with metrics.submittedFailed := q.metrics.submittedFailed.map (· + 1) }

/-- `container.push_back` and the counters of an accepted item -/
def pushBack (q : JobQueue policy queueSize T) (item : T) : JobQueue policy queueSize T :=
  { q with
    container := q.container ++ [item]
    metrics.submittedTotal := q.metrics.submittedTotal.map (· + 1)
    metrics.queuedNumber := q.metrics.queuedNumber.map (· + 1) }

/-- Refuse an item when the queue is stopped or full. -/
def tryPush (q : JobQueue policy queueSize T) (item : T) :
    SubmitResult × JobQueue policy queueSize T :=
  if q.stopFlag then (.shutdown, q.countFailed)
  else if queueSize ≤ q.container.length then (.full, q.countFailed)
  else (.pushed, q.pushBack item)

/-- Wait for room; the item is dropped when the queue is stopped. -/
def push (q : JobQueue policy queueSize T) (item : T) : Option (JobQueue policy queueSize T) :=
  if q.stopFlag then some q
  else if queueSize ≤ q.container.length then none
  else some (q.pushBack item)

/-- The container after a removal, with the counter of queued items. -/
def removed (q : JobQueue policy queueSize T) (rest : List T) : JobQueue policy queueSize T :=
  { q with container := rest, metrics.queuedNumber := q.metrics.queuedNumber.map (· - 1) }

/-- Wait for an item; `some none` is the answer `false` of an empty stopped queue. -/
def pop (q : JobQueue policy queueSize T) : Option (Option (T × JobQueue policy queueSize T)) :=
  match q.container with
  | [] => if q.stopFlag then some none else none
  | x :: xs => match policy with
    | .fifo => some (some (x, q.removed xs))
    | .lifo => some (some ((x :: xs).getLast (List.cons_ne_nil x xs),
        q.removed (x :: xs).dropLast))

def shutdown (q : JobQueue policy queueSize T) : JobQueue policy queueSize T :=
  { q with stopFlag := true }

def jobsInQueue (q : JobQueue policy queueSize T) : ℕ := q.container.length

section Lemmas

variable {q q' : JobQueue policy queueSize T} {item : T} {rest : List T}

@[simp] theorem container_countFailed : q.countFailed.container = q.container := rfl
@[simp] theorem stopFlag_countFailed : q.countFailed.stopFlag = q.stopFlag := rfl
@[simp] theorem container_pushBack : (q.pushBack item).container = q.container ++ [item] := rfl
@[simp] theorem stopFlag_pushBack : (q.pushBack item).stopFlag = q.stopFlag := rfl
@[simp] theorem container_removed : (q.removed rest).container = rest := rfl
@[simp] theorem stopFlag_removed : (q.removed rest).stopFlag = q.stopFlag := rfl
@[simp] theorem container_shutdown : q.shutdown.container = q.container := rfl
@[simp] theorem stopFlag_shutdown : q.shutdown.stopFlag = true := rfl

theorem tryPush_pushed (h : q.tryPush item = (.pushed, q')) :
    q.stopFlag = false ∧ q.container.length < queueSize ∧ q' = q.pushBack item := by
  unfold tryPush at h
  split_ifs at h with hs hf <;> simp at h
  exact ⟨by simpa using hs, by omega, h.symm⟩

theorem tryPush_full (h : q.tryPush item = (.full, q')) :
    q.stopFlag = false ∧ queueSize ≤ q.container.length ∧ q' = q.countFailed := by
  unfold tryPush at h
  split_ifs at h with hs hf <;> simp at h
  exact ⟨by simpa using hs, hf, h.symm⟩

theorem tryPush_shutdown (h : q.tryPush item = (.shutdown, q')) :
    q.stopFlag = true ∧ q' = q.countFailed := by
  unfold tryPush at h
  split_ifs at h with hs hf <;> simp at h
  exact ⟨hs, h.symm⟩

theorem push_eq_some (h : q.push item = some q') :
    q.stopFlag = true ∧ q' = q ∨
      q.stopFlag = false ∧ q.container.length < queueSize ∧ q' = q.pushBack item := by
  unfold push at h
  split_ifs at h with hs hf <;> cases h
  · exact .inl ⟨hs, rfl⟩
  · exact .inr ⟨by simpa using hs, by omega, rfl⟩

theorem push_eq_none (h : q.push item = none) :
    q.stopFlag = false ∧ queueSize ≤ q.container.length := by
  unfold push at h
  split_ifs at h with hs hf
  exact ⟨by simpa using hs, hf⟩

theorem pop_closed (h : q.pop = some none) : q.container = [] ∧ q.stopFlag = true := by
  unfold pop at h
  cases hc : q.container with
  | nil => simp_all
  | cons x xs => cases policy <;> simp [hc] at h

theorem pop_eq_none (h : q.pop = none) : q.container = [] ∧ q.stopFlag = false := by
  unfold pop at h
  cases hc : q.container with
  | nil => simp_all
  | cons x xs => cases policy <;> simp [hc] at h

theorem push_of_full (hl : queueSize ≤ q.container.length) (hs : q.stopFlag = false) :
    q.push item = none := by
  simp [push, hs, hl]

theorem pop_of_empty (hc : q.container = []) (hs : q.stopFlag = false) : q.pop = none := by
  simp [pop, hc, hs]

/-- A FIFO queue hands out its oldest item. -/
theorem pop_fifo {q q' : JobQueue .fifo queueSize T} (h : q.pop = some (some (item, q'))) :
    ∃ rest, q.container = item :: rest ∧ q' = q.removed rest := by
  unfold pop at h
  cases hc : q.container with
  | nil => simp [hc] at h
  | cons x xs =>
    simp only [hc, Option.some.injEq, Prod.mk.injEq] at h
    exact ⟨xs, by rw [h.1], h.2.symm⟩

/-- A LIFO queue hands out its newest item. -/
theorem pop_lifo {q q' : JobQueue .lifo queueSize T} (h : q.pop = some (some (item, q'))) :
    ∃ rest, q.container = rest ++ [item] ∧ q' = q.removed rest := by
  unfold pop at h
  cases hc : q.container with
  | nil => simp [hc] at h
  | cons x xs =>
    simp only [hc, Option.some.injEq, Prod.mk.injEq] at h
    exact ⟨(x :: xs).dropLast, by rw [← h.1, List.dropLast_append_getLast], h.2.symm⟩

end Lemmas

end JobQueue

/-- A pool: its queue and the number of its threads that are still in `work_forever`. -/
structure ThreadPool (policy : QueueType) (queueSize : ℕ) (T : Type) where
  jobQueue : JobQueue policy queueSize T
  live : ℕ

end ScanDaemon
