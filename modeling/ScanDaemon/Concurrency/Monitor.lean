import ScanDaemon.Library.Monitor
import ScanDaemon.Concurrency.JobQueue

/-! # The threads at a job queue

Producers and consumers of a `JobQueue` wait on the same condition variable,
and every operation wakes one thread. As long as a wake-up goes to a thread of
the other kind whenever such a thread waits, nobody waits for a condition that
holds. Otherwise the queue may come to rest with room for its producers or
items for its consumers.
-/

namespace ScanDaemon

open Interleave

/-- The operations on a job queue. -/
inductive QueueCall (T : Type)
  | push (item : T)
  | tryPush (item : T)
  | pop
  | shutdown

namespace QueueCall

variable {policy : QueueType} {queueSize : ℕ} {T : Type}

/-- The critical sections, with what each notifies after it. -/
def body : QueueCall T → JobQueue policy queueSize T →
    Option (JobQueue policy queueSize T × Option Notice)
  | .push item, q => (q.push item).map fun q' => (q', if q.stopFlag then none else some .one)
  | .tryPush item, q => match q.tryPush item with
    | (.pushed, q') => some (q', some .one)
    | (_, q') => some (q', none)
  | .pop, q => q.pop.map fun
    | none => (q, none)
    | some (_, q') => (q', some .one)
  | .shutdown, q => some (q.shutdown, some .all)

/-- A stopped queue stays stopped. -/
theorem body_stopFlag {c : QueueCall T} {q q' : JobQueue policy queueSize T} {n : Option Notice}
    (h : c.body q = some (q', n)) (hs : q.stopFlag = true) : q'.stopFlag = true := by
  cases c with
  | push item =>
    simp only [body, JobQueue.push, hs, if_true, Option.map_some] at h
    cases h
    exact hs
  | tryPush item =>
    simp only [body, JobQueue.tryPush, hs, if_true] at h
    cases h
    exact hs
  | pop =>
    obtain ⟨r, hr, he⟩ := Option.map_eq_some_iff.mp h
    rcases r with _ | ⟨item, r⟩
    · cases he
      exact hs
    · cases he
      cases policy with
      | fifo => obtain ⟨rest, -, rfl⟩ := JobQueue.pop_fifo hr; exact hs
      | lifo => obtain ⟨rest, -, rfl⟩ := JobQueue.pop_lifo hr; exact hs
  | shutdown => cases h; rfl

/-- A call that adds an item. -/
def IsPush : QueueCall T → Prop
  | .push _ | .tryPush _ => True
  | .pop | .shutdown => False

variable {c : QueueCall T} {q q' : JobQueue policy queueSize T} {n : Notice}

theorem body_none (h : c.body q = none) : q.stopFlag = false ∧
    (c = .pop ∧ q.container = [] ∨ ∃ item, c = .push item ∧ queueSize ≤ q.container.length) := by
  cases c with
  | push item =>
    obtain ⟨hs, hl⟩ := JobQueue.push_eq_none (Option.map_eq_none_iff.mp h)
    exact ⟨hs, .inr ⟨item, rfl, hl⟩⟩
  | tryPush item =>
    rcases ht : q.tryPush item with ⟨res, r⟩
    cases res <;> simp [body, ht] at h
  | pop =>
    obtain ⟨hc, hs⟩ := JobQueue.pop_eq_none (Option.map_eq_none_iff.mp h)
    exact ⟨hs, .inl ⟨rfl, hc⟩⟩
  | shutdown => cases h

/-- A call that notifies nobody changes neither the items nor the flag; while the queue is not
stopped, it is a `tryPush` that was refused. -/
theorem body_silent (h : c.body q = some (q', none)) :
    q'.stopFlag = q.stopFlag ∧ q'.container = q.container ∧
      (q.stopFlag = true ∨ ∃ item, c = .tryPush item) := by
  cases c with
  | push item =>
    obtain ⟨r, hr, he⟩ := Option.map_eq_some_iff.mp h
    rcases JobQueue.push_eq_some hr with ⟨hs, rfl⟩ | ⟨hs, -, -⟩
    · obtain ⟨rfl, -⟩ := Prod.mk.inj he
      exact ⟨rfl, rfl, .inl hs⟩
    · simp [hs] at he
  | tryPush item =>
    rcases ht : q.tryPush item with ⟨res, r⟩
    simp only [body, ht] at h
    cases res with
    | pushed => cases h
    | full =>
      obtain ⟨-, -, rfl⟩ := JobQueue.tryPush_full ht
      cases h
      exact ⟨rfl, rfl, .inr ⟨item, rfl⟩⟩
    | shutdown =>
      obtain ⟨hs, rfl⟩ := JobQueue.tryPush_shutdown ht
      cases h
      exact ⟨rfl, rfl, .inl hs⟩
  | pop =>
    obtain ⟨r, hr, he⟩ := Option.map_eq_some_iff.mp h
    cases r with
    | none => cases he; exact ⟨rfl, rfl, .inl (JobQueue.pop_closed hr).2⟩
    | some p => cases he
  | shutdown => cases h

/-- A call that notifies adds an item, removes one, or stops the queue. -/
theorem body_notify (h : c.body q = some (q', some n)) :
    (c.IsPush ∧ n = .one ∧ q.stopFlag = false ∧ q'.stopFlag = false ∧
      q'.container.length = q.container.length + 1) ∨
    (c = .pop ∧ n = .one ∧ q'.stopFlag = q.stopFlag ∧
      q'.container.length + 1 = q.container.length) ∨
    (c = .shutdown ∧ n = .all ∧ q'.stopFlag = true) := by
  cases c with
  | push item =>
    obtain ⟨r, hr, he⟩ := Option.map_eq_some_iff.mp h
    rcases JobQueue.push_eq_some hr with ⟨hs, rfl⟩ | ⟨hs, -, rfl⟩
    · simp [hs] at he
    · simp only [hs, Bool.false_eq_true, if_false, Prod.mk.injEq, Option.some.injEq] at he
      obtain ⟨rfl, rfl⟩ := he
      exact .inl ⟨trivial, rfl, hs, hs, by simp⟩
  | tryPush item =>
    rcases ht : q.tryPush item with ⟨res, r⟩
    simp only [body, ht] at h
    cases res with
    | pushed =>
      obtain ⟨hs, -, rfl⟩ := JobQueue.tryPush_pushed ht
      cases h
      exact .inl ⟨trivial, rfl, hs, hs, by simp⟩
    | full | shutdown => cases h
  | pop =>
    obtain ⟨r, hr, he⟩ := Option.map_eq_some_iff.mp h
    rcases r with _ | ⟨item, r⟩
    · cases he
    · cases he
      refine .inr (.inl ⟨rfl, rfl, ?_⟩)
      cases policy with
      | fifo =>
        obtain ⟨rest, hc, rfl⟩ := JobQueue.pop_fifo hr
        simp [hc]
      | lifo =>
        obtain ⟨rest, hc, rfl⟩ := JobQueue.pop_lifo hr
        simp [hc]
  | shutdown => cases h; exact .inr (.inr ⟨rfl, rfl, rfl⟩)

end QueueCall

section

variable {policy : QueueType} {queueSize : ℕ} {T : Type} {ι : Type} [DecidableEq ι] [Fintype ι]

/-- The queue that the constructor leaves. -/
def queueMonitor (policy : QueueType) (queueSize : ℕ) (T : Type) (metrics : QueueMetrics) :
    Monitor (JobQueue policy queueSize T) (QueueCall T) where
  init := .new metrics
  body := QueueCall.body

abbrev QueueState (ι : Type) (policy : QueueType) (queueSize : ℕ) (T : Type) :=
  Monitor.State ι (JobQueue policy queueSize T) (QueueCall T)

variable {m m' : QueueState ι policy queueSize T} {a : ι × Monitor.Act ι (QueueCall T)} {i j : ι}
  {c : QueueCall T} {q q' : JobQueue policy queueSize T} {n : Option Notice}

/-- A consumer waits. -/
def ConsumerWaits (st : ι → Status (QueueCall T)) : Prop := ∃ i, st i = .waiting .pop

/-- A producer waits in `push`. -/
def ProducerWaits (st : ι → Status (QueueCall T)) : Prop :=
  ∃ i item, st i = .waiting (.push item)

/-- No thread is awake or about to notify, while a thread waits for what has come true. -/
def Stuck (m : QueueState ι policy queueSize T) : Prop :=
  Monitor.Asleep m ∧ (ConsumerWaits m.status ∧ m.shared.container ≠ [] ∨
    ProducerWaits m.status ∧ m.shared.container.length < queueSize)

/-- A thread that is woken after an addition is a consumer if one waits; one that is woken after a
removal is a producer if one waits. -/
def WakesOther (m : QueueState ι policy queueSize T) (a : ι × Monitor.Act ι (QueueCall T)) : Prop :=
  match m.status a.1, a.2 with
  | .notifying (.push _) .one, .notify (some j) | .notifying (.tryPush _) .one, .notify (some j) =>
    ConsumerWaits m.status → m.status j = .waiting .pop
  | .notifying .pop .one, .notify (some j) =>
    ProducerWaits m.status → ∃ item, m.status j = .waiting (.push item)
  | _, _ => True

/-- Counts the consumers that are awake and the additions that have still to be announced. -/
@[simp] def feeding : Status (QueueCall T) → ℕ
  | .ready .pop | .notifying (.push _) .one | .notifying (.tryPush _) .one => 1
  | _ => 0

/-- Counts the producers that are awake and the removals that have still to be announced. -/
@[simp] def draining : Status (QueueCall T) → ℕ
  | .ready (.push _) | .notifying .pop .one => 1
  | _ => 0

/-- Every item has somebody to take it and every free place somebody to fill it, as far as
threads wait for them. -/
structure Attended (m : QueueState ι policy queueSize T) : Prop where
  items : m.shared.stopFlag = false → ConsumerWaits m.status →
    m.shared.container.length ≤ Monitor.tally feeding m.status
  room : m.shared.stopFlag = false → ProducerWaits m.status →
    queueSize ≤ m.shared.container.length + Monitor.tally draining m.status
  stopped : m.shared.stopFlag = true →
    (∃ i c, m.status i = .notifying c .all) ∨ ∀ i c, m.status i ≠ .waiting c

variable {st : ι → Status (QueueCall T)} {new : Status (QueueCall T)}

omit [Fintype ι] in
/-- A thread that does not come to wait for an item leaves the waiting consumers alone. -/
theorem consumerWaits_of_update (hn : new ≠ .waiting .pop)
    (h : ConsumerWaits (Function.update st i new)) : ConsumerWaits st := by
  obtain ⟨j, hj⟩ := h
  rcases eq_or_ne j i with rfl | hne
  · exact absurd (by simpa using hj) hn
  · exact ⟨j, by simpa [Function.update_of_ne hne] using hj⟩

omit [Fintype ι] in
theorem producerWaits_of_update (hn : ∀ item, new ≠ .waiting (.push item))
    (h : ProducerWaits (Function.update st i new)) : ProducerWaits st := by
  obtain ⟨j, item, hj⟩ := h
  rcases eq_or_ne j i with rfl | hne
  · exact absurd (by simpa using hj) (hn item)
  · exact ⟨j, item, by simpa [Function.update_of_ne hne] using hj⟩

omit [Fintype ι] in
/-- A thread that does not come to wait leaves nobody else waiting. -/
theorem not_waiting_of_update (hn : ∀ c, new ≠ .waiting c) (h : ∀ j c, st j ≠ .waiting c) :
    ∀ j c, Function.update st i new j ≠ .waiting c := by
  intro j c hj
  rcases eq_or_ne j i with rfl | hne
  · exact hn c (by simpa using hj)
  · exact h j c (by simpa [Function.update_of_ne hne] using hj)

/-- One thread moves on, without waiting, and the weights follow the items. -/
theorem Attended.move (h : Attended m) (hn : ∀ c, new ≠ .waiting c)
    (hstop : q.stopFlag = false → m.shared.stopFlag = false)
    (hitems : q.stopFlag = false → q.container.length + feeding (m.status i) ≤
      m.shared.container.length + feeding new)
    (hroom : q.stopFlag = false → m.shared.container.length + draining (m.status i) ≤
      q.container.length + draining new)
    (hstopped : q.stopFlag = true → (∃ c, new = .notifying c .all) ∨
      m.shared.stopFlag = true ∧ ∀ c, m.status i ≠ .notifying c .all) :
    Attended (⟨q, Function.update m.status i new⟩ : QueueState ι policy queueSize T) where
  items hs hw := by
    have h₁ := h.items (hstop hs) (consumerWaits_of_update (hn _) hw)
    have h₂ := Monitor.tally_update i feeding m.status new
    have h₃ := hitems hs
    dsimp only
    omega
  room hs hw := by
    have h₁ := h.room (hstop hs) (producerWaits_of_update (fun _ => hn _) hw)
    have h₂ := Monitor.tally_update i draining m.status new
    have h₃ := hroom hs
    dsimp only
    omega
  stopped hs := by
    rcases hstopped hs with ⟨c, hc⟩ | ⟨hs, hi⟩
    · exact .inl ⟨i, c, by simpa using hc⟩
    · rcases h.stopped hs with ⟨j, c, hj⟩ | hnone
      · have hne : j ≠ i := by
          rintro rfl
          exact hi c hj
        exact .inl ⟨j, c, by simpa [Function.update_of_ne hne] using hj⟩
      · exact .inr (not_waiting_of_update hn hnone)

/-- A thread starts to wait because its condition is false. -/
theorem Attended.wait (h : Attended m) (hi : m.status i = .ready c)
    (hb : c.body m.shared = none) :
    Attended { m with status := Function.update m.status i (.waiting c) } := by
  obtain ⟨hs, hc⟩ := QueueCall.body_none hb
  have hf := Monitor.tally_update i feeding m.status (.waiting c)
  have hd := Monitor.tally_update i draining m.status (.waiting c)
  rw [hi] at hf hd
  refine ⟨fun _ hw => ?_, fun _ hw => ?_, fun hstop => absurd (hs.symm.trans hstop) (by simp)⟩
  · rcases hc with ⟨rfl, hempty⟩ | ⟨item, rfl, -⟩
    · simp [hempty]
    · have h₁ := h.items hs (consumerWaits_of_update (by simp) hw)
      simp only [feeding] at hf
      dsimp only
      omega
  · rcases hc with ⟨rfl, -⟩ | ⟨item, rfl, hfull⟩
    · have h₁ := h.room hs (producerWaits_of_update (by simp) hw)
      simp only [draining] at hd
      dsimp only
      omega
    · exact hfull.trans (Nat.le_add_right _ _)

/-- A notification that wakes a thread for which there is work whenever one waits. -/
theorem Attended.notify (h : Attended m) (hi : m.status i = .notifying c .one)
    {d : QueueCall T} (hj : m.status j = .waiting d)
    (hpush : c.IsPush → ConsumerWaits m.status → d = .pop)
    (hpop : c = .pop → ProducerWaits m.status → ∃ item, d = .push item) :
    Attended { m with
      status := Function.update (Function.update m.status i .outside) j (.ready d) } := by
  have hne : j ≠ i := by
    rintro rfl
    rw [hi] at hj
    cases hj
  have hf := Monitor.tally_update j feeding (Function.update m.status i .outside) (.ready d)
  have hf' := Monitor.tally_update i feeding m.status .outside
  have hd := Monitor.tally_update j draining (Function.update m.status i .outside) (.ready d)
  have hd' := Monitor.tally_update i draining m.status .outside
  rw [Function.update_of_ne hne, hj] at hf hd
  rw [hi] at hf' hd'
  refine ⟨fun hs hw => ?_, fun hs hw => ?_, fun hs => ?_⟩
  · have hw : ConsumerWaits m.status :=
      consumerWaits_of_update (by simp) (consumerWaits_of_update (by simp) hw)
    have h₁ := h.items hs hw
    cases c with
    | push item | tryPush item =>
      obtain rfl := hpush trivial hw
      simp only [feeding] at hf hf'
      dsimp only
      omega
    | pop | shutdown =>
      simp only [feeding] at hf hf'
      dsimp only
      omega
  · have hw : ProducerWaits m.status :=
      producerWaits_of_update (by simp) (producerWaits_of_update (by simp) hw)
    have h₁ := h.room hs hw
    cases c with
    | pop =>
      obtain ⟨item, rfl⟩ := hpop rfl hw
      simp only [draining] at hd hd'
      dsimp only
      omega
    | push item | tryPush item | shutdown =>
      simp only [draining] at hd hd'
      dsimp only
      omega
  · rcases h.stopped hs with ⟨k, e, hk⟩ | hnone
    · have h₁ : k ≠ i := by
        rintro rfl
        rw [hi] at hk
        cases hk
      have h₂ : k ≠ j := by
        rintro rfl
        rw [hj] at hk
        cases hk
      exact .inl ⟨k, e, by simpa [Function.update_of_ne h₁, Function.update_of_ne h₂] using hk⟩
    · exact absurd hj (hnone j d)

theorem Attended.step {metrics : QueueMetrics} {act : Monitor.Act ι (QueueCall T)}
    (h : Attended m) (hstep : (queueMonitor policy queueSize T metrics).step m (i, act) = some m')
    (hok : WakesOther m (i, act)) : Attended m' := by
  cases Monitor.move_of_step hstep with
  | @call c hi =>
    refine h.move (by simp) id ?_ ?_ fun hs => .inr ⟨hs, by simp [hi]⟩ <;> simp [hi]
  | @wait c hi hb => exact h.wait hi hb
  | @leave c s hi hb =>
    obtain ⟨hs, hc, hidle⟩ := QueueCall.body_silent hb
    have hrunning : s.stopFlag = false → ∃ item, c = .tryPush item := fun hstop =>
      hidle.resolve_left (by rw [← hs, hstop]; simp)
    refine h.move (by simp) (hs ▸ id) (fun hstop => ?_) (fun hstop => ?_) fun hstop =>
      .inr ⟨hs ▸ hstop, by simp [hi]⟩ <;>
    · obtain ⟨item, rfl⟩ := hrunning hstop
      simp [hi, hc]
  | @announce c s n hi hb =>
    rcases QueueCall.body_notify hb with ⟨hp, rfl, hs, hs', hl⟩ | ⟨rfl, rfl, hs, hl⟩ |
      ⟨rfl, rfl, hs⟩
    · refine h.move (by simp) (fun _ => hs) (fun _ => ?_) (fun _ => ?_) fun hstop =>
        absurd (hs'.symm.trans hstop) (by simp)
      · cases c with
        | push item | tryPush item => simp [hi, hl]
        | pop | shutdown => exact hp.elim
      · cases c with
        | push item | tryPush item => simp [hi, hl]
        | pop | shutdown => exact hp.elim
    · refine h.move (by simp) (hs ▸ id) (fun _ => ?_) (fun _ => ?_) fun hstop =>
        .inr ⟨hs ▸ hstop, by simp [hi]⟩
      · simp [hi, ← hl]
      · simp [hi, ← hl]
    · have hrunning : s.stopFlag ≠ false := by simp [hs]
      exact h.move (by simp) (absurd · hrunning) (absurd · hrunning) (absurd · hrunning)
        fun _ => .inl ⟨_, rfl⟩
  | @notify_one c d j hi hj =>
    cases c with
    | push item | tryPush item =>
      simp only [WakesOther, hi, hj, Status.waiting.injEq] at hok
      exact h.notify hi hj (fun _ => hok) (by simp)
    | pop =>
      simp only [WakesOther, hi, hj, Status.waiting.injEq] at hok
      exact h.notify hi hj (by simp [QueueCall.IsPush]) fun _ => hok
    | shutdown => exact h.notify hi hj (by simp [QueueCall.IsPush]) (by simp)
  | @notify_nobody c hi hn =>
    have hnone : ∀ j c, Function.update m.status i .outside j ≠ .waiting c :=
      not_waiting_of_update (by simp) hn
    exact ⟨fun _ ⟨j, hj⟩ => absurd hj (hnone j _), fun _ ⟨j, item, hj⟩ => absurd hj (hnone j _),
      fun _ => .inr hnone⟩
  | @notify_all c hi =>
    have hnone : ∀ j c, Function.update (Status.woken ∘ m.status) i .outside j ≠ .waiting c := by
      refine not_waiting_of_update (by simp) fun j c hj => ?_
      cases hst : m.status j <;> simp [Status.woken, hst] at hj
    exact ⟨fun _ ⟨j, hj⟩ => absurd hj (hnone j _), fun _ ⟨j, item, hj⟩ => absurd hj (hnone j _),
      fun _ => .inr hnone⟩
  | @wake c hi =>
    refine h.move (by simp) id ?_ ?_ fun hs => .inr ⟨hs, by simp [hi]⟩ <;> simp [hi]

theorem attended_of_reach {metrics : QueueMetrics}
    (h : ((queueMonitor policy queueSize T metrics).system ι).Reach WakesOther m) :
    Attended m := by
  refine h.invariant ⟨?_, ?_, ?_⟩ fun n a n' _ hok hs ha => ha.step hs hok
  · rintro - ⟨i, hi⟩
    cases hi
  · rintro - ⟨i, item, hi⟩
    cases hi
  · intro hs
    cases hs

omit [DecidableEq ι] in
/-- A queue at which everybody sleeps has nothing for those that wait. -/
theorem Attended.not_stuck (h : Attended m) : ¬Stuck m := by
  rintro ⟨hsleep, hwork⟩
  have hf : Monitor.tally feeding m.status = 0 := Monitor.tally_eq_zero fun j => by
    rcases hsleep j with hj | ⟨c, hj⟩ <;> simp [hj]
  have hd : Monitor.tally draining m.status = 0 := Monitor.tally_eq_zero fun j => by
    rcases hsleep j with hj | ⟨c, hj⟩ <;> simp [hj]
  cases hs : m.shared.stopFlag with
  | false =>
    rcases hwork with ⟨hw, hne⟩ | ⟨hw, hlt⟩
    · have h₁ := h.items hs hw
      rw [hf, Nat.le_zero, List.length_eq_zero_iff] at h₁
      exact hne h₁
    · have h₁ := h.room hs hw
      omega
  | true =>
    rcases h.stopped hs with ⟨i, c, hi⟩ | hnone
    · rcases hsleep i with hj | ⟨d, hj⟩ <;> rw [hi] at hj <;> cases hj
    · rcases hwork with ⟨⟨i, hi⟩, -⟩ | ⟨⟨i, item, hi⟩, -⟩
      · exact hnone i _ hi
      · exact hnone i _ hi

omit [DecidableEq ι] in
/-- So whoever waits there would have to wait again. -/
theorem Attended.body_eq_none (h : Attended m) (hsleep : Monitor.Asleep m)
    (hs : m.shared.stopFlag = false) (hi : m.status i = .waiting c)
    (hc : c = .pop ∨ ∃ item, c = .push item) : c.body m.shared = none := by
  rcases hc with rfl | ⟨item, rfl⟩
  · have hempty : m.shared.container = [] := by
      by_contra hne
      exact h.not_stuck ⟨hsleep, .inl ⟨⟨i, hi⟩, hne⟩⟩
    rw [QueueCall.body, JobQueue.pop_of_empty hempty hs, Option.map_none]
  · have hfull : queueSize ≤ m.shared.container.length := by
      by_contra hlt
      exact h.not_stuck ⟨hsleep, .inr ⟨⟨i, item, hi⟩, Nat.lt_of_not_le hlt⟩⟩
    rw [QueueCall.body, JobQueue.push_of_full hfull hs, Option.map_none]

/-- In the runs in which a notification wakes a thread of the other kind whenever one waits, the
queue never comes to rest while a consumer waits beside an item or a producer beside room. -/
theorem queue_not_stuck {metrics : QueueMetrics}
    (h : ((queueMonitor policy queueSize T metrics).system ι).Reach WakesOther m) : ¬Stuck m :=
  (attended_of_reach h).not_stuck

omit [DecidableEq ι] [Fintype ι] in
/-- The condition is about threads that have to notify. -/
theorem wakesOther_of_ne {act : Monitor.Act ι (QueueCall T)}
    (hi : ∀ c n, m.status i ≠ .notifying c n) : WakesOther m (i, act) := by
  unfold WakesOther
  split
  next hst _ => exact absurd hst (hi _ _)
  next hst _ => exact absurd hst (hi _ _)
  next hst _ => exact absurd hst (hi _ _)
  next => trivial

omit [DecidableEq ι] [Fintype ι] in
theorem wakesOther_call : WakesOther m (i, .call c) := by
  unfold WakesOther
  split <;> trivial

omit [DecidableEq ι] [Fintype ι] in
theorem wakesOther_enter : WakesOther m (i, .enter) := by
  unfold WakesOther
  split <;> trivial

omit [DecidableEq ι] [Fintype ι] in
theorem wakesOther_wake : WakesOther m (i, .wake) := by
  unfold WakesOther
  split <;> trivial

/-- The system can always pick a thread of the other kind if one waits. -/
theorem exists_notify (metrics : QueueMetrics) (hi : m.status i = .notifying c .one) : ∃ t m',
    (queueMonitor policy queueSize T metrics).step m (i, .notify t) = some m' ∧
      WakesOther m (i, .notify t) := by
  by_cases hnone : ∀ j, (m.status j).isWaiting = false
  · refine ⟨none, { m with status := Function.update m.status i .outside }, ?_, ?_⟩
    · simp only [Monitor.step, hi, if_pos hnone]
    · simp only [WakesOther, hi]
  · have hpick : ∀ j d, m.status j = .waiting d → ∃ m',
        (queueMonitor policy queueSize T metrics).step m (i, .notify (some j)) = some m' :=
      fun j d hj => ⟨_, by simp only [Monitor.step, hi, hj]; rfl⟩
    push Not at hnone
    obtain ⟨k, hk⟩ := hnone
    obtain ⟨d, hd⟩ : ∃ d, m.status k = .waiting d := by
      cases hst : m.status k <;> simp [hst, Status.isWaiting] at hk ⊢
    obtain ⟨mk, hsk⟩ := hpick k d hd
    cases c with
    | push item | tryPush item =>
      by_cases hw : ConsumerWaits m.status
      · obtain ⟨j, hj⟩ := hw
        obtain ⟨mj, hsj⟩ := hpick j _ hj
        refine ⟨some j, mj, hsj, ?_⟩
        simp only [WakesOther, hi]
        exact fun _ => hj
      · refine ⟨some k, mk, hsk, ?_⟩
        simp only [WakesOther, hi]
        exact fun h => absurd h hw
    | pop =>
      by_cases hw : ProducerWaits m.status
      · obtain ⟨j, item, hj⟩ := hw
        obtain ⟨mj, hsj⟩ := hpick j _ hj
        refine ⟨some j, mj, hsj, ?_⟩
        simp only [WakesOther, hi]
        exact fun _ => ⟨item, hj⟩
      · refine ⟨some k, mk, hsk, ?_⟩
        simp only [WakesOther, hi]
        exact fun h => absurd h hw
    | shutdown =>
      refine ⟨some k, mk, hsk, ?_⟩
      simp only [WakesOther, hi]

/-- Only a thread that has stopped the queue notifies everybody. -/
theorem stopped_of_notifying {metrics : QueueMetrics}
    {ok : QueueState ι policy queueSize T → ι × Monitor.Act ι (QueueCall T) → Prop}
    (h : ((queueMonitor policy queueSize T metrics).system ι).Reach ok m)
    (hi : m.status i = .notifying c .all) : m.shared.stopFlag = true := by
  refine h.invariant (P := fun m => ∀ i c, m.status i = .notifying c .all →
    m.shared.stopFlag = true) (fun _ _ hi => nomatch hi) ?_ i c hi
  rintro n ⟨j, act⟩ n' - - hs ih k d hk
  cases Monitor.move_of_step hs with
  | announce hj hb =>
    rcases eq_or_ne k j with rfl | hkj
    · simp only [Function.update_self, Status.notifying.injEq] at hk
      obtain ⟨-, rfl⟩ := hk
      rcases QueueCall.body_notify hb with ⟨-, hn, -⟩ | ⟨-, hn, -⟩ | ⟨-, -, hstop⟩
      · cases hn
      · cases hn
      · exact hstop
    · exact QueueCall.body_stopFlag hb (ih k d (by simpa [Function.update_of_ne hkj] using hk))
  | leave hj hb =>
    rcases eq_or_ne k j with rfl | hkj
    · simp at hk
    · exact QueueCall.body_stopFlag hb (ih k d (by simpa [Function.update_of_ne hkj] using hk))
  | @notify_one c d' l hj hl =>
    rcases eq_or_ne k l with rfl | hkl
    · simp at hk
    · rcases eq_or_ne k j with rfl | hkj
      · simp [Function.update_of_ne hkl] at hk
      · exact ih k d (by simpa [Function.update_of_ne hkl, Function.update_of_ne hkj] using hk)
  | notify_all hj => exact ih j _ hj
  | call | wait | notify_nobody | wake =>
    rcases eq_or_ne k j with rfl | hkj
    · simp at hk
    · exact ih k d (by simpa [Function.update_of_ne hkj] using hk)

/-! ## Two producers and one consumer at a queue of one place -/

instance (st : Status (QueueCall T)) : Decidable (st = .waiting .pop) :=
  match st with
  | .waiting .pop => .isTrue rfl
  | .waiting (.push _) | .waiting (.tryPush _) | .waiting .shutdown | .outside | .ready _
  | .notifying _ _ => .isFalse (by simp)

instance (st : Status (QueueCall T)) : Decidable (∃ item, st = .waiting (.push item)) :=
  match st with
  | .waiting (.push item) => .isTrue ⟨item, rfl⟩
  | .waiting .pop | .waiting (.tryPush _) | .waiting .shutdown | .outside | .ready _
  | .notifying _ _ => .isFalse (by simp)

instance (st : ι → Status (QueueCall T)) : Decidable (ConsumerWaits st) :=
  inferInstanceAs (Decidable (∃ i, st i = .waiting .pop))

instance (st : ι → Status (QueueCall T)) : Decidable (ProducerWaits st) :=
  inferInstanceAs (Decidable (∃ i, ∃ item, st i = .waiting (.push item)))

instance (m : QueueState ι policy queueSize T) (a : ι × Monitor.Act ι (QueueCall T)) :
    Decidable (WakesOther m a) := by
  unfold WakesOther
  split <;> infer_instance

end

/-- The thread 0 pops and the threads 1 and 2 push: the queue is full, the producers wait, the
consumer takes the item, wakes the first producer and waits for the next item. -/
def crowd : List (Fin 3 × Monitor.Act (Fin 3) (QueueCall Unit)) :=
  [(1, .call (.push ())), (1, .enter), (1, .notify none),
    (1, .call (.push ())), (1, .enter), (2, .call (.push ())), (2, .enter),
    (0, .call .pop), (0, .enter), (0, .notify (some 1)), (0, .call .pop), (0, .enter)]

/-- The queue of one place with its three threads. -/
abbrev crowded : System (QueueState (Fin 3) .fifo 1 Unit)
    (Fin 3 × Monitor.Act (Fin 3) (QueueCall Unit)) :=
  (queueMonitor .fifo 1 Unit ⟨none, none, some 0⟩).system (Fin 3)

/-- The producer that has pushed wakes the consumer. -/
theorem queue_not_stuck_crowd :
    let m := crowded.run (crowd ++ [(1, .enter), (1, .notify (some 0))])
    ConsumerWaits (crowded.run crowd).status ∧ ProducerWaits m.status ∧ ¬Stuck m :=
  ⟨by decide, by decide, queue_not_stuck (System.reach_run (by decide))⟩

/-- The producer that has pushed wakes the other producer, which waits again, and all sleep. -/
theorem queue_stuck :
    ∃ m, crowded.Reachable m ∧ Stuck m ∧ ConsumerWaits m.status ∧
      m.shared.container.length = 1 ∧ m.shared.stopFlag = false := by
  refine ⟨_, System.reachable_run _ (crowd ++ [(1, .enter), (1, .notify (some 2)), (2, .enter)]),
    ⟨fun i => ?_, .inl ⟨?_, ?_⟩⟩, ?_, ?_, ?_⟩
  · fin_cases i
    · exact .inr ⟨.pop, rfl⟩
    · exact .inl rfl
    · exact .inr ⟨.push (), rfl⟩
  all_goals decide

end ScanDaemon
