import ScanDaemon.Concurrency.Monitor
import ScanDaemon.Library.Discipline

/-! # What a job queue hands out

The calls on a job queue are recorded: which items it has accepted and handed
out, in the order of the critical sections, and how many calls of `try_push` it
has rejected. For any number of threads the container holds the items that are
left, in the order of the policy, and the counters agree with the record.
-/

namespace ScanDaemon

open Interleave Interleave.Access

/-- What has happened at a job queue. -/
structure QueueLog (T : Type) where
  accesses : List (Access T)
  /-- the calls of `try_push` that answered `Full` or `Shutdown` -/
  rejected : ℕ

namespace QueueLog

variable {T : Type}

def new : QueueLog T := ⟨[], 0⟩

@[simps] def add (log : QueueLog T) (e : Access T) : QueueLog T :=
  { log with accesses := log.accesses ++ [e] }

@[simps] def reject (log : QueueLog T) : QueueLog T := { log with rejected := log.rejected + 1 }

end QueueLog

variable {policy : QueueType} {queueSize : ℕ} {T : Type} {q q' : JobQueue policy queueSize T}
  {log : QueueLog T} {item : T} {total failed : ℕ}

/-- The record of a critical section that is executed at `q`. -/
def QueueCall.note (c : QueueCall T) (q : JobQueue policy queueSize T) (log : QueueLog T) :
    QueueLog T :=
  match c with
  | .push item => if q.stopFlag then log else log.add (.put item)
  | .tryPush item => match q.tryPush item with
    | (.pushed, _) => log.add (.put item)
    | _ => log.reject
  | .pop => match q.pop with
    | some (some (item, _)) => log.add (.take item)
    | _ => log
  | .shutdown => log

/-- The queue with its record. -/
def recordedQueue (policy : QueueType) (queueSize : ℕ) (T : Type) (metrics : QueueMetrics) :
    Monitor (JobQueue policy queueSize T × QueueLog T) (QueueCall T) :=
  (queueMonitor policy queueSize T metrics).recorded QueueCall.note .new

/-- The items are handed out in the order of the policy. -/
def InOrder (policy : QueueType) (es : List (Access T)) (container : List T) : Prop :=
  match policy with
  | .fifo => puts es = takes es ++ container
  | .lifo => Lifo es ∧ Leaves es container

/-- What holds between the critical sections, with the values from which the counters start. -/
structure Agrees (total failed : ℕ) (q : JobQueue policy queueSize T) (log : QueueLog T) :
    Prop where
  size : q.container.length ≤ queueSize
  items : (puts log.accesses : Multiset T) = takes log.accesses + q.container
  order : InOrder policy log.accesses q.container
  submittedTotal : q.metrics.submittedTotal = some (total + (puts log.accesses).length)
  submittedFailed : q.metrics.submittedFailed = some (failed + log.rejected)
  queuedNumber : q.metrics.queuedNumber = some q.container.length

namespace Agrees

theorem pushBack (h : Agrees total failed q log) (hroom : q.container.length < queueSize) :
    Agrees total failed (q.pushBack item) (log.add (.put item)) where
  size := by simpa using hroom
  items := by
    simp only [QueueLog.add_accesses, puts_append, takes_append, puts, takes, List.append_nil,
      JobQueue.container_pushBack, ← Multiset.coe_add, h.items, add_assoc]
  order := by
    have ho := h.order
    unfold InOrder at ho ⊢
    cases policy with
    | fifo => simp [puts, takes, ho]
    | lifo => exact ⟨ho.1.append_put, ho.2.push⟩
  submittedTotal := by simp [JobQueue.pushBack, h.submittedTotal, puts, add_assoc]
  submittedFailed := h.submittedFailed
  queuedNumber := by simp [JobQueue.pushBack, h.queuedNumber]

theorem countFailed (h : Agrees total failed q log) :
    Agrees total failed q.countFailed log.reject :=
  ⟨h.size, h.items, h.order, h.submittedTotal,
    by simp [JobQueue.countFailed, h.submittedFailed, add_assoc], h.queuedNumber⟩

theorem shutdown (h : Agrees total failed q log) : Agrees total failed q.shutdown log :=
  ⟨h.size, h.items, h.order, h.submittedTotal, h.submittedFailed, h.queuedNumber⟩

/-- An item of the container is handed out. -/
theorem removed {rest : List T} (h : Agrees total failed q log)
    (hc : (q.container : Multiset T) = item ::ₘ rest)
    (ho : InOrder policy (log.accesses ++ [.take item]) rest) :
    Agrees total failed (q.removed rest) (log.add (.take item)) where
  size := by
    have hcard := congrArg Multiset.card hc
    have hs := h.size
    simp only [Multiset.coe_card, Multiset.card_cons] at hcard
    simp only [JobQueue.container_removed]
    omega
  items := by
    rw [JobQueue.container_removed, QueueLog.add_accesses, puts_append, takes_append,
      ← Multiset.coe_add, ← Multiset.coe_add, h.items, hc]
    simp [puts, takes, add_assoc]
  order := ho
  submittedTotal := h.submittedTotal.trans (by simp [puts])
  submittedFailed := h.submittedFailed
  queuedNumber := by
    have hcard := congrArg Multiset.card hc
    simp only [Multiset.coe_card, Multiset.card_cons] at hcard
    simp [JobQueue.removed, h.queuedNumber, hcard]

/-- The queue hands out the item that its policy asks for. -/
theorem pop (h : Agrees total failed q log) (hp : q.pop = some (some (item, q'))) :
    Agrees total failed q' (log.add (.take item)) := by
  have ho := h.order
  cases policy with
  | fifo =>
    obtain ⟨rest, hc, rfl⟩ := JobQueue.pop_fifo hp
    rw [hc] at ho
    exact h.removed (by simp [hc]) (by simpa [InOrder, puts, takes] using ho)
  | lifo =>
    obtain ⟨rest, hc, rfl⟩ := JobQueue.pop_lifo hp
    rw [hc] at ho
    obtain ⟨⟨before, mid, he, hm⟩, hl⟩ := ho.2.pop
    refine h.removed ?_ ⟨ho.1.append_take he hm, hl⟩
    rw [hc, ← Multiset.coe_add, add_comm]
    rfl

/-- Every critical section keeps the agreement. -/
theorem body {c : QueueCall T} {n : Option Notice} (h : Agrees total failed q log)
    (hb : c.body q = some (q', n)) : Agrees total failed q' (c.note q log) := by
  cases c with
  | push item =>
    obtain ⟨r, hr, he⟩ := Option.map_eq_some_iff.mp hb
    obtain ⟨rfl, -⟩ := Prod.mk.inj he
    rcases JobQueue.push_eq_some hr with ⟨hs, rfl⟩ | ⟨hs, hroom, rfl⟩
    · simpa [QueueCall.note, hs] using h
    · simpa [QueueCall.note, hs] using h.pushBack hroom
  | tryPush item =>
    rcases ht : q.tryPush item with ⟨result, r⟩
    simp only [QueueCall.body, ht] at hb
    simp only [QueueCall.note, ht]
    cases result with
    | pushed =>
      obtain ⟨-, hroom, rfl⟩ := JobQueue.tryPush_pushed ht
      cases hb
      exact h.pushBack hroom
    | full =>
      obtain ⟨-, -, rfl⟩ := JobQueue.tryPush_full ht
      cases hb
      exact h.countFailed
    | shutdown =>
      obtain ⟨-, rfl⟩ := JobQueue.tryPush_shutdown ht
      cases hb
      exact h.countFailed
  | pop =>
    obtain ⟨r, hr, he⟩ := Option.map_eq_some_iff.mp hb
    simp only [QueueCall.note, hr]
    cases r with
    | none => cases he; exact h
    | some p => cases he; exact h.pop hr
  | shutdown => cases hb; exact h.shutdown

end Agrees

/-- A stopped queue accepts nothing and stays stopped. -/
theorem QueueCall.body_stopped (log : QueueLog T) {c : QueueCall T} {n : Option Notice}
    (hs : q.stopFlag = true)
    (hb : c.body q = some (q', n)) :
    q'.stopFlag = true ∧ puts (c.note q log).accesses = puts log.accesses := by
  cases c with
  | push item =>
    have hr : q.push item = some q := by simp [JobQueue.push, hs]
    simp only [body, hr, Option.map_some, Option.some.injEq, Prod.mk.injEq] at hb
    exact ⟨hb.1 ▸ hs, by simp [note, hs]⟩
  | tryPush item =>
    have ht : q.tryPush item = (.shutdown, q.countFailed) := by simp [JobQueue.tryPush, hs]
    simp only [body, ht, Option.some.injEq, Prod.mk.injEq] at hb
    exact ⟨hb.1 ▸ hs, by simp [note, ht]⟩
  | pop =>
    obtain ⟨r, hr, he⟩ := Option.map_eq_some_iff.mp hb
    rcases r with _ | ⟨item, r⟩
    · cases he
      exact ⟨hs, by simp [note, hr]⟩
    · cases he
      have hstop : q'.stopFlag = q.stopFlag := by
        cases policy with
        | fifo => obtain ⟨rest, -, rfl⟩ := JobQueue.pop_fifo hr; rfl
        | lifo => obtain ⟨rest, -, rfl⟩ := JobQueue.pop_lifo hr; rfl
      exact ⟨hstop.trans hs, by simp [note, hr, puts]⟩
  | shutdown => cases hb; exact ⟨rfl, rfl⟩

/-- The critical section of `shutdown` stops the queue. -/
theorem QueueCall.stopped_of_shutdown {n : Option Notice}
    (h : QueueCall.shutdown.body q = some (q', n)) : q'.stopFlag = true := by
  cases h
  rfl

section

variable {ι : Type} [DecidableEq ι] [Fintype ι]

/-- Any number of threads at a queue whose counters are bound: the container keeps to its size,
what was accepted is what was handed out and what is left, in the order of the policy, the
counters count the accepted items, the rejections and the items left, a stopped queue accepts
nothing any more, and only an empty stopped queue lets `pop` answer `false`. -/
theorem queue_contract
    {m : Monitor.State ι (JobQueue policy queueSize T × QueueLog T) (QueueCall T)}
    (h : ((recordedQueue policy queueSize T ⟨some total, some failed, some 0⟩).system ι).Reachable
      m) :
    let q := m.shared.1
    let es := m.shared.2.accesses
    q.container.length ≤ queueSize ∧
    (puts es : Multiset T) = takes es + q.container ∧
    (policy = .fifo → takes es <+: puts es) ∧
    (policy = .lifo → Lifo es) ∧
    q.metrics.submittedTotal = some (total + (puts es).length) ∧
    q.metrics.submittedFailed = some (failed + m.shared.2.rejected) ∧
    q.metrics.queuedNumber = some q.container.length ∧
    (q.stopFlag = true → ∀ m',
      ((recordedQueue policy queueSize T ⟨some total, some failed, some 0⟩).system ι).Leads m m' →
        puts m'.shared.2.accesses = puts es) ∧
    (q.pop = some none → q.stopFlag = true ∧ q.container = []) := by
  intro q es
  have ha : Agrees total failed q m.shared.2 := by
    refine Monitor.shared_of_reach (P := fun s => Agrees total failed s.1 s.2) h ?_ ?_
    · refine ⟨Nat.zero_le _, rfl, ?_, rfl, rfl, rfl⟩
      cases policy with
      | fifo => rfl
      | lifo => exact ⟨lifo_nil, .nested .nil⟩
    · intro c s s' n hs hb
      obtain ⟨r, hr, he⟩ := Option.map_eq_some_iff.mp hb
      obtain ⟨rfl, rfl⟩ := Prod.mk.inj he
      exact hs.body hr
  refine ⟨ha.size, ha.items, ?_, ?_, ha.submittedTotal, ha.submittedFailed, ha.queuedNumber,
    fun hstop m' hl => ?_, fun hpop => (JobQueue.pop_closed hpop).symm⟩
  · rintro rfl
    exact ⟨q.container, ha.order.symm⟩
  · rintro rfl
    exact ha.order.1
  · refine (hl.stable (P := fun m => m.shared.1.stopFlag = true ∧ puts m.shared.2.accesses =
      puts es) h ⟨hstop, rfl⟩ ?_).2
    intro n a n' _ hs ⟨hn, hp⟩
    rcases (Monitor.move_of_step hs).shared_eq with he | ⟨c, k, -, hb⟩
    · rw [he]
      exact ⟨hn, hp⟩
    · obtain ⟨r, hr, he⟩ := Option.map_eq_some_iff.mp hb
      obtain ⟨hshared, -⟩ := Prod.mk.inj he
      rw [← hshared]
      obtain ⟨hn', hp'⟩ := QueueCall.body_stopped n.shared.2 hn hr
      exact ⟨hn', hp'.trans hp⟩

end

/-- Two items go through a LIFO queue with a thread that pushes and one that pops; the newer one
comes out first. -/
def twoPushes : List (Fin 2 × Monitor.Act (Fin 2) (QueueCall ℕ)) :=
  [(0, .call (.push 5)), (0, .enter), (0, .notify none), (0, .call (.tryPush 7)), (0, .enter),
    (0, .notify none), (0, .call (.tryPush 8)), (0, .enter), (1, .call .pop), (1, .enter)]

/-- The record of the two threads at a queue of two places. -/
theorem queue_contract_two :
    let m := ((recordedQueue .lifo 2 ℕ ⟨some 0, some 0, some 0⟩).system (Fin 2)).run twoPushes
    m.shared.2.accesses = [.put 5, .put 7, .take 7] ∧ Lifo m.shared.2.accesses ∧
      m.shared.1.metrics.submittedFailed = some (0 + m.shared.2.rejected) :=
  have h := queue_contract (System.reachable_run
    ((recordedQueue .lifo 2 ℕ ⟨some 0, some 0, some 0⟩).system (Fin 2)) twoPushes)
  ⟨by decide, h.2.2.2.1 rfl, h.2.2.2.2.2.1⟩

end ScanDaemon
