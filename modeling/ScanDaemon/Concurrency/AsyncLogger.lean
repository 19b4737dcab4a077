import Mathlib.Tactic.DeriveFintype
import ScanDaemon.Library.Machine

/-! # The logger

Threads that log put their items into a bounded queue, from which one worker
writes them. An item that finds the queue full or the logger stopped goes to the
terminal instead, except that warnings and errors wait for room as long as the
logger is not stopped. No item is lost on the way and none is output twice.
-/

namespace ScanDaemon

open Interleave

namespace AsyncLogger

inductive LogLevel | info | warn | debug | error
  deriving DecidableEq, Repr

structure LogItem where
  timestamp : ℤ
  tid : ℕ
  msg : List Char
  level : LogLevel
  deriving DecidableEq, Repr

/-- The levels whose items wait for room in the queue. -/
def LogLevel.Waits (level : LogLevel) : Prop := level = .warn ∨ level = .error

instance (level : LogLevel) : Decidable level.Waits := inferInstanceAs (Decidable (_ ∨ _))

/-- `MAX_QUEUE_SIZE` for the configured `queue_max_size` -/
def maxQueueSize (configured : ℕ) : ℕ := if configured = 0 then 1 else configured

/-- The program points of the threads. -/
inductive LogFrame
  /-- a thread that may log -/
  | client
  | helper (item : LogItem)
  | printToTerminal (item : LogItem)
  /-- `logger_fallback.fetch_add(1)` -/
  | countFallback
  /-- the thread object that `start` creates -/
  | created
  | workerLoop
  | writeLog (item : LogItem)
  /-- `logger_finished.fetch_add(1)` -/
  | countFinished
  | start
  | idle
  | shutdown
  /-- `log_worker.join()` -/
  | join

/-- The worker, the thread that starts the logger and shuts it down, and those that log. -/
inductive LogThread (κ : Type)
  | client (k : κ)
  | worker
  | owner
  deriving DecidableEq, Fintype

structure Logger where
  logQueue : List LogItem
  stop : Bool
  /-- whether the worker has been created -/
  started : Bool
  /-- whether the worker has left its loop -/
  exited : Bool
  /-- whether `shutdown` has returned -/
  returned : Bool
  loggerPending : ℤ
  loggerFinished : ℕ
  loggerFallback : ℕ
  /-- the items passed to `helper` -/
  passed : List LogItem
  /-- the items output by `write_log` -/
  written : List LogItem
  /-- the items output by `print_to_terminal` -/
  terminal : List LogItem

def Logger.new : Logger := ⟨[], false, false, false, false, 0, 0, 0, [], [], []⟩

section Exec

variable (queueSize : ℕ) (s : Logger)

/-- A step; a thread that has to wait on the condition variable does not move. The input of a
thread that may log is the item that it passes to `helper`. -/
def execLogger (x : Option LogItem) : LogFrame → Option (Logger × List LogFrame)
  | .client => match x with
    | some item => some ({ s with passed := s.passed ++ [item] }, [.helper item, .client])
    | none => none
  | .helper item =>
    if s.stop then some (s, [.printToTerminal item])
    else if queueSize ≤ s.logQueue.length then
      if item.level.Waits then none else some (s, [.printToTerminal item])
    else some ({ s with
      logQueue := s.logQueue ++ [item], loggerPending := s.loggerPending + 1 }, [])
  | .printToTerminal item => some ({ s with terminal := s.terminal ++ [item] }, [.countFallback])
  | .countFallback => some ({ s with loggerFallback := s.loggerFallback + 1 }, [])
  | .created => if s.started then some (s, [.workerLoop]) else none
  | .workerLoop => match s.logQueue with
    | [] => if s.stop then some ({ s with exited := true }, []) else none
    | item :: rest => some ({ s with logQueue := rest, loggerPending := s.loggerPending - 1 },
        [.writeLog item, .workerLoop])
  | .writeLog item => some ({ s with written := s.written ++ [item] }, [.countFinished])
  | .countFinished => some ({ s with loggerFinished := s.loggerFinished + 1 }, [])
  | .start => some ({ s with stop := false, started := true }, [.idle])
  | .idle => some (s, [.shutdown])
  | .shutdown => some ({ s with stop := true }, [.join])
  | .join => if s.exited then some ({ s with returned := true }, []) else none

end Exec

/-- A logger that is about to be started, and later shut down, by its owner. -/
def asyncLogger (configured : ℕ) (κ : Type) [DecidableEq κ] :
    System (Machine (LogThread κ) Logger LogFrame) (LogThread κ × Option LogItem) where
  init := ⟨.new, fun
    | .client _ => [.client]
    | .worker => [.created]
    | .owner => [.start]⟩
  step m a := m.step (fun s x => execLogger (maxQueueSize configured) s x) a.1 a.2

variable {queueSize configured : ℕ} {κ : Type} {s s' : Logger} {x : Option LogItem}
  {f g : LogFrame} {fs rest : List LogFrame} {item : LogItem}

/-! ## What a step can do -/

inductive LogStep (queueSize : ℕ) (s : Logger) : LogFrame → Logger → List LogFrame → Prop where

  | log {item : LogItem} : LogStep queueSize s .client { s with passed := s.passed ++ [item] }
      [.helper item, .client]

  | fallback {item : LogItem} : (item.level.Waits → s.stop = true) →
      LogStep queueSize s (.helper item) s [.printToTerminal item]

  | push {item : LogItem} : s.stop = false → s.logQueue.length < queueSize →
      LogStep queueSize s (.helper item) { s with
        logQueue := s.logQueue ++ [item], loggerPending := s.loggerPending + 1 } []

  | print {item : LogItem} : LogStep queueSize s (.printToTerminal item)
      { s with terminal := s.terminal ++ [item] } [.countFallback]

  | count_fallback : LogStep queueSize s .countFallback
      { s with loggerFallback := s.loggerFallback + 1 } []

  | begin : s.started = true → LogStep queueSize s .created s [.workerLoop]

  | exit : s.logQueue = [] → s.stop = true →
      LogStep queueSize s .workerLoop { s with exited := true } []

  | consume {item : LogItem} {rest : List LogItem} : s.logQueue = item :: rest →
      LogStep queueSize s .workerLoop { s with
        logQueue := rest, loggerPending := s.loggerPending - 1 } [.writeLog item, .workerLoop]

  | write {item : LogItem} : LogStep queueSize s (.writeLog item)
      { s with written := s.written ++ [item] } [.countFinished]

  | count_finished : LogStep queueSize s .countFinished
      { s with loggerFinished := s.loggerFinished + 1 } []

  | start : LogStep queueSize s .start { s with stop := false, started := true } [.idle]

  | call_shutdown : LogStep queueSize s .idle s [.shutdown]

  | shutdown : LogStep queueSize s .shutdown { s with stop := true } [.join]

  | joined : s.exited = true → LogStep queueSize s .join { s with returned := true } []

theorem LogStep.of_exec (h : execLogger queueSize s x f = some (s', fs)) :
    LogStep queueSize s f s' fs := by
  cases f with
  | client =>
    cases x with
    | none => cases h
    | some item => cases h; exact .log
  | helper item =>
    simp only [execLogger] at h
    split at h
    next hs => cases h; exact .fallback fun _ => hs
    next hs =>
      split at h
      · split at h
        · cases h
        next hw => cases h; exact .fallback fun hw' => absurd hw' hw
      next hq =>
        cases h
        exact .push (by simpa using hs) (not_le.mp hq)
  | printToTerminal item => cases h; exact .print
  | countFallback => cases h; exact .count_fallback
  | created =>
    simp only [execLogger] at h
    split at h
    next hs => cases h; exact .begin hs
    · cases h
  | workerLoop =>
    simp only [execLogger] at h
    split at h
    next hq =>
      split at h
      next hs => cases h; exact .exit hq hs
      · cases h
    next hq => cases h; exact .consume hq
  | writeLog item => cases h; exact .write
  | countFinished => cases h; exact .count_finished
  | start => cases h; exact .start
  | idle => cases h; exact .call_shutdown
  | shutdown => cases h; exact .shutdown
  | join =>
    simp only [execLogger] at h
    split at h
    next he => cases h; exact .joined he
    · cases h

/-! ## The stacks -/

/-- What no step undoes. -/
structure Logger.Grows (s s' : Logger) : Prop where
  stop : s.stop = true → s'.stop = true
  started : s.started = true → s'.started = true
  exited : s.exited = true → s'.exited = true
  closed : s.stop = true → s.logQueue = [] → s'.logQueue = []

theorem LogStep.grows (hs : LogStep queueSize s f s' fs) (hf : f = .start → s.stop = false) :
    s.Grows s' := by
  cases hs with
  | push hstop => exact ⟨id, id, id, fun h => absurd (hstop.symm.trans h) (by decide)⟩
  | exit => exact ⟨id, id, fun _ => rfl, fun _ => id⟩
  | consume hq => exact ⟨id, id, id, fun _ h => absurd (hq.symm.trans h) (List.cons_ne_nil _ _)⟩
  | start => exact
    ⟨fun h => absurd ((hf rfl).symm.trans h) (by decide), fun _ => rfl, id, fun _ => id⟩
  | shutdown => exact ⟨fun _ => rfl, id, id, fun _ => id⟩
  | _ => exact ⟨id, id, id, fun _ => id⟩

/-- The stacks of a thread that may log. -/
inductive ClientShape : List LogFrame → Prop where

  | client : ClientShape [.client]

  | helper (item : LogItem) : ClientShape [.helper item, .client]

  | printing (item : LogItem) : ClientShape [.printToTerminal item, .client]

  | counting : ClientShape [.countFallback, .client]

/-- The stacks of the worker. -/
inductive WorkerShape (s : Logger) : List LogFrame → Prop where

  | created : s.exited = false → WorkerShape s [.created]

  | loop : s.exited = false → WorkerShape s [.workerLoop]

  | writing (item : LogItem) : s.exited = false → WorkerShape s [.writeLog item, .workerLoop]

  | counting : s.exited = false → WorkerShape s [.countFinished, .workerLoop]

  | exited : s.exited = true → s.stop = true → s.logQueue = [] → WorkerShape s []

/-- The stacks of the owner. -/
inductive OwnerShape (s : Logger) : List LogFrame → Prop where

  | start : s.stop = false → s.returned = false → OwnerShape s [.start]

  | idle : s.started = true → s.returned = false → OwnerShape s [.idle]

  | shutdown : s.started = true → s.returned = false → OwnerShape s [.shutdown]

  | join : s.started = true → s.stop = true → s.returned = false → OwnerShape s [.join]

  | returned : s.started = true → s.stop = true → s.exited = true → s.returned = true →
      OwnerShape s []

/-- The stacks of a thread. -/
def LogShape (s : Logger) : LogThread κ → List LogFrame → Prop
  | .client _ => ClientShape
  | .worker => WorkerShape s
  | .owner => OwnerShape s

theorem ClientShape.step (h : ClientShape (f :: rest)) (hs : LogStep queueSize s f s' fs) :
    ClientShape (fs ++ rest) ∧ s'.exited = s.exited ∧ s'.returned = s.returned := by
  cases h with
  | client =>
    cases hs with
    | log => exact ⟨.helper _, rfl, rfl⟩
  | helper =>
    cases hs with
    | fallback => exact ⟨.printing _, rfl, rfl⟩
    | push => exact ⟨.client, rfl, rfl⟩
  | printing =>
    cases hs with
    | print => exact ⟨.counting, rfl, rfl⟩
  | counting =>
    cases hs with
    | count_fallback => exact ⟨.client, rfl, rfl⟩

theorem WorkerShape.step (h : WorkerShape s (f :: rest)) (hs : LogStep queueSize s f s' fs) :
    WorkerShape s' (fs ++ rest) ∧ s'.returned = s.returned := by
  cases h with
  | created he =>
    cases hs with
    | begin => exact ⟨.loop he, rfl⟩
  | loop he =>
    cases hs with
    | exit hq hstop => exact ⟨.exited rfl hstop hq, rfl⟩
    | consume => exact ⟨.writing _ he, rfl⟩
  | writing _ he =>
    cases hs with
    | write => exact ⟨.counting he, rfl⟩
  | counting he =>
    cases hs with
    | count_finished => exact ⟨.loop he, rfl⟩

theorem OwnerShape.step (h : OwnerShape s (f :: rest)) (hs : LogStep queueSize s f s' fs) :
    OwnerShape s' (fs ++ rest) ∧ s'.exited = s.exited := by
  cases h with
  | start _ hr =>
    cases hs with
    | start => exact ⟨.idle rfl hr, rfl⟩
  | idle hb hr =>
    cases hs with
    | call_shutdown => exact ⟨.shutdown hb hr, rfl⟩
  | shutdown hb hr =>
    cases hs with
    | shutdown => exact ⟨.join hb rfl hr, rfl⟩
  | join hb hstop hr =>
    cases hs with
    | joined he => exact ⟨.returned hb hstop he rfl, rfl⟩

theorem WorkerShape.mono {st : List LogFrame} (h : WorkerShape s st) (hg : s.Grows s')
    (he : s'.exited = s.exited) : WorkerShape s' st := by
  cases h with
  | created h => exact .created (he.trans h)
  | loop h => exact .loop (he.trans h)
  | writing item h => exact .writing item (he.trans h)
  | counting h => exact .counting (he.trans h)
  | exited h hstop hq => exact .exited (he.trans h) (hg.stop hstop) (hg.closed hstop hq)

theorem OwnerShape.mono {st : List LogFrame} (h : OwnerShape s st) (hg : s.Grows s')
    (hst : s'.stop = s.stop) (hr : s'.returned = s.returned) : OwnerShape s' st := by
  cases h with
  | start h hr' => exact .start (hst.trans h) (hr.trans hr')
  | idle hb hr' => exact .idle (hg.started hb) (hr.trans hr')
  | shutdown hb hr' => exact .shutdown (hg.started hb) (hr.trans hr')
  | join hb hstop hr' => exact .join (hg.started hb) (hst.trans hstop) (hr.trans hr')
  | returned hb hstop he hr' =>
    exact .returned (hg.started hb) (hst.trans hstop) (hg.exited he) (hr.trans hr')

variable {t : LogThread κ}

theorem LogShape.step (h : LogShape s t (f :: rest)) (hs : LogStep queueSize s f s' fs) :
    LogShape s' t (fs ++ rest) := by
  cases t with
  | client k => exact (ClientShape.step h hs).1
  | worker => exact (WorkerShape.step h hs).1
  | owner => exact (OwnerShape.step h hs).1

/-- Only the owner starts and stops the logger. -/
theorem LogShape.stop_eq (h : LogShape s t (f :: rest)) (hs : LogStep queueSize s f s' fs)
    (ht : t ≠ .owner) : f ≠ .start ∧ s'.stop = s.stop := by
  cases t with
  | client k =>
    cases h <;> cases hs <;> exact ⟨LogFrame.noConfusion, rfl⟩
  | worker =>
    cases h <;> cases hs <;> exact ⟨LogFrame.noConfusion, rfl⟩
  | owner => exact absurd rfl ht

theorem LogShape.grows (h : LogShape s t (f :: rest)) (hs : LogStep queueSize s f s' fs) :
    s.Grows s' := by
  refine hs.grows fun hf => ?_
  cases t with
  | client k => subst hf; cases h
  | worker => subst hf; cases h
  | owner =>
    subst hf
    cases h with
    | start hstop => exact hstop

/-! ## Where the items are -/

/-- The item that a frame has. -/
@[simp] def inHand : LogFrame → Multiset LogItem
  | .helper item | .printToTerminal item | .writeLog item => {item}
  | _ => 0

/-- An output of the worker that is not counted yet. -/
@[simp] def uncountedFinished : LogFrame → ℕ
  | .countFinished => 1
  | _ => 0

/-- An output on the terminal that is not counted yet. -/
@[simp] def uncountedFallback : LogFrame → ℕ
  | .countFallback => 1
  | _ => 0

/-- What holds of the data and of the frames `F` of all threads. -/
structure Accounted (queueSize : ℕ) (s : Logger) (F : Multiset LogFrame) : Prop where
  items : (s.passed : Multiset LogItem) = s.written + s.terminal + s.logQueue + weigh inHand F
  bound : s.logQueue.length ≤ queueSize
  pending : s.loggerPending = s.logQueue.length
  finished : s.written.length = s.loggerFinished + weigh uncountedFinished F
  fallback : s.terminal.length = s.loggerFallback + weigh uncountedFallback F
  printing : ∀ item, .printToTerminal item ∈ F → item.level.Waits → s.stop = true
  terminal : ∀ item ∈ s.terminal, item.level.Waits → s.stop = true

theorem Accounted.step {R : Multiset LogFrame} (h : Accounted queueSize s (f ::ₘ R))
    (hs : LogStep queueSize s f s' fs) (hg : s.Grows s') :
    Accounted queueSize s' ((fs : Multiset LogFrame) + R) := by
  obtain ⟨items, bound, pending, finished, fallback, printing, terminal⟩ := h
  have hprinting : ∀ item, .printToTerminal item ∈ R → item.level.Waits → s'.stop = true :=
    fun item hi hw => hg.stop (printing item (Multiset.mem_cons_of_mem hi) hw)
  have hterminal : ∀ item ∈ s.terminal, item.level.Waits → s'.stop = true :=
    fun item hi hw => hg.stop (terminal item hi hw)
  rw [weigh_cons] at items finished fallback
  cases hs with
  | log =>
    refine ⟨?_, bound, pending, by simpa using finished, by simpa using fallback,
      fun item hi => hprinting item (by simpa using hi), hterminal⟩
    simp only [← Multiset.coe_add, items, weigh_add, weigh_coe_cons, inHand,
      Multiset.coe_singleton, weigh_singleton, zero_add]
    abel
  | @fallback item hw =>
    refine ⟨by simpa using items, bound, pending, by simpa using finished, by simpa using fallback,
      fun item' hi => ?_, hterminal⟩
    simp only [Multiset.mem_add, Multiset.mem_coe, List.mem_singleton] at hi
    rcases hi with hi | hi
    · cases hi
      exact hw
    · exact hprinting item' hi
  | @push item hstop hroom =>
    refine ⟨?_, by simpa using hroom, by simpa using pending, by simpa using finished,
      by simpa using fallback, fun item hi => hprinting item (by simpa using hi), hterminal⟩
    simp only [← Multiset.coe_add, items, inHand, Multiset.coe_nil, Multiset.coe_singleton,
      zero_add]
    abel
  | @print item =>
    refine ⟨?_, bound, pending, by simpa using finished, ?_,
      fun item hi => hprinting item (by simpa using hi), fun item' hi hw => ?_⟩
    · simp only [← Multiset.coe_add, items, weigh_add, inHand, Multiset.coe_singleton,
        weigh_singleton]
      abel
    · simp at fallback ⊢
      omega
    · rcases List.mem_append.mp hi with hi | hi
      · exact hterminal item' hi hw
      · obtain rfl := List.mem_singleton.mp hi
        exact printing item' (Multiset.mem_cons_self _ _) hw
  | count_fallback =>
    refine ⟨by simpa using items, bound, pending, by simpa using finished, ?_,
      fun item hi => hprinting item (by simpa using hi), hterminal⟩
    simp at fallback ⊢
    omega
  | @consume item queued hq =>
    rw [hq] at items bound pending
    refine ⟨?_, Nat.le_of_succ_le bound, by simp [pending], by simpa using finished,
      by simpa using fallback, fun item hi => hprinting item (by simpa using hi), hterminal⟩
    simp only [items, weigh_add, weigh_coe_cons, inHand, Multiset.coe_singleton, weigh_singleton,
      zero_add, add_zero]
    rw [← Multiset.cons_coe, ← Multiset.singleton_add]
    abel
  | @write item =>
    refine ⟨?_, bound, pending, ?_, by simpa using fallback,
      fun item hi => hprinting item (by simpa using hi), hterminal⟩
    · simp only [← Multiset.coe_add, items, weigh_add, inHand, Multiset.coe_singleton,
        weigh_singleton]
      abel
    · simp at finished ⊢
      omega
  | count_finished =>
    refine ⟨by simpa using items, bound, pending, ?_, by simpa using fallback,
      fun item hi => hprinting item (by simpa using hi), hterminal⟩
    simp at finished ⊢
    omega
  | _ =>
    exact ⟨by simpa using items, bound, pending, by simpa using finished, by simpa using fallback,
      fun item hi => hprinting item (by simpa using hi), hterminal⟩

variable [DecidableEq κ] [Fintype κ] {m m' : Machine (LogThread κ) Logger LogFrame}
  {a : LogThread κ × Option LogItem}

/-- What holds in every state of the logger. -/
structure LoggerSound (queueSize : ℕ) (m : Machine (LogThread κ) Logger LogFrame) : Prop where
  shape : ∀ t, LogShape m.shared t (m.stack t)
  accounted : Accounted queueSize m.shared m.frames

theorem LoggerSound.step (h : LoggerSound (maxQueueSize configured) m)
    (hs : (asyncLogger configured κ).step m a = some m') :
    LoggerSound (maxQueueSize configured) m' := by
  obtain ⟨f, rest, fs, R, hf, he, hstack, hF, hF'⟩ := Machine.frames_step hs
  have hst := LogStep.of_exec he
  have hsh := h.shape a.1
  rw [hf] at hsh
  have hg := hsh.grows hst
  constructor
  · intro t
    rw [hstack]
    by_cases ht : t = a.1
    · subst ht
      rw [Function.update_self]
      exact hsh.step hst
    · rw [Function.update_of_ne ht]
      have hmono := h.shape t
      generalize a.1 = t' at hsh ht
      cases t with
      | client k => exact hmono
      | worker =>
        refine WorkerShape.mono hmono hg ?_
        cases t' with
        | client k => exact (ClientShape.step hsh hst).2.1
        | worker => exact absurd rfl ht
        | owner => exact (OwnerShape.step hsh hst).2
      | owner =>
        refine OwnerShape.mono hmono hg (hsh.stop_eq hst (Ne.symm ht)).2 ?_
        cases t' with
        | client k => exact (ClientShape.step hsh hst).2.2
        | worker => exact (WorkerShape.step hsh hst).2
        | owner => exact absurd rfl ht
  · have hacc := h.accounted
    rw [hF] at hacc
    rw [hF']
    exact hacc.step hst hg

theorem loggerSound_of_reachable (h : (asyncLogger configured κ).Reachable m) :
    LoggerSound (maxQueueSize configured) m := by
  refine h.invariant ⟨fun t => ?_, ?_⟩ fun n a n' _ _ hs hn => hn.step hs
  · cases t with
    | client k => exact .client
    | worker => exact .created rfl
    | owner => exact .start rfl rfl
  · have idle : ∀ f ∈ (asyncLogger configured κ).init.frames,
        f = .client ∨ f = .created ∨ f = .start := by
      intro f hf
      obtain ⟨t, ht⟩ := Machine.mem_frames.mp hf
      cases t with
      | client k => exact Or.inl (List.mem_singleton.mp ht)
      | worker => exact Or.inr (Or.inl (List.mem_singleton.mp ht))
      | owner => exact Or.inr (Or.inr (List.mem_singleton.mp ht))
    have none : ∀ {M : Type} [AddCommMonoid M] (w : LogFrame → M),
        w .client = 0 → w .created = 0 → w .start = 0 →
          weigh w (asyncLogger configured κ).init.frames = 0 := by
      intro M _ w h₁ h₂ h₃
      apply weigh_eq_zero
      intro f hf
      rcases idle f hf with rfl | rfl | rfl <;> assumption
    refine ⟨?_, Nat.zero_le _, rfl, ?_, ?_, fun item hi => ?_, fun item hi => nomatch hi⟩
    · rw [none inHand rfl rfl rfl]
      rfl
    · rw [none uncountedFinished rfl rfl rfl]
      rfl
    · rw [none uncountedFallback rfl rfl rfl]
      rfl
    · rcases idle _ hi with h | h | h <;> cases h

/-! ## The end of a run -/

/-- No logging call is in progress. -/
def Idle (m : Machine (LogThread κ) Logger LogFrame) : Prop := ∀ k, m.stack (.client k) = [.client]

omit [DecidableEq κ] in
/-- When `shutdown` has returned, the worker is gone and the queue is empty. -/
theorem LoggerSound.returned (h : LoggerSound queueSize m) (hr : m.shared.returned = true) :
    m.stack .owner = [] ∧ m.stack .worker = [] ∧ m.shared.logQueue = [] := by
  have howner : OwnerShape m.shared (m.stack .owner) := h.shape .owner
  have hworker : WorkerShape m.shared (m.stack .worker) := h.shape .worker
  generalize m.stack .owner = so at howner
  generalize m.stack .worker = sw at hworker
  cases howner with
  | returned _ _ he _ =>
    cases hworker with
    | exited _ _ hq => exact ⟨rfl, rfl, hq⟩
    | created hn | loop hn | writing _ hn | counting hn =>
      exact absurd (hn.symm.trans he) (by decide)
  | start _ hn | idle _ hn | shutdown _ hn | join _ _ hn =>
    exact absurd (hn.symm.trans hr) (by decide)

omit [DecidableEq κ] in
/-- The frames that are left are those of the threads that may log. -/
theorem LoggerSound.frames_eq (h : LoggerSound queueSize m) (hr : m.shared.returned = true)
    (hi : Idle m) : ∀ f ∈ m.frames, f = .client := by
  obtain ⟨howner, hworker, -⟩ := h.returned hr
  intro f hf
  obtain ⟨t, ht⟩ := Machine.mem_frames.mp hf
  cases t with
  | client k =>
    rw [hi k] at ht
    exact List.mem_singleton.mp ht
  | worker => rw [hworker] at ht; cases ht
  | owner => rw [howner] at ht; cases ht

/-- What the counters and the outputs are at the end. -/
structure Settled (s : Logger) : Prop where
  empty : s.logQueue = []
  pending : s.loggerPending = 0
  total : s.loggerFinished + s.loggerFallback = s.passed.length
  /-- every item has been output as often as it was passed, by one of the two -/
  output : (s.written : Multiset LogItem) + s.terminal = s.passed

omit [DecidableEq κ] in
theorem LoggerSound.settled (h : LoggerSound queueSize m) (hr : m.shared.returned = true)
    (hi : Idle m) : Settled m.shared := by
  obtain ⟨items, -, pending, finished, fallback, -, -⟩ := h.accounted
  have hq := (h.returned hr).2.2
  have hF := h.frames_eq hr hi
  rw [weigh_eq_zero fun f hf => by rw [hF f hf]; rfl] at items finished fallback
  have hitems : (m.shared.written : Multiset LogItem) + m.shared.terminal = m.shared.passed := by
    simpa [hq] using items.symm
  refine ⟨hq, by simpa [hq] using pending, ?_, hitems⟩
  have := congrArg Multiset.card hitems
  simp only [Multiset.card_add, Multiset.coe_card] at this
  omega

/-! ## Every run can be brought to its end -/

/-- The steps that a frame still takes, with those of the worker for the item that it may queue. -/
@[simp] def remaining : LogFrame → ℕ
  | .helper _ => 5
  | .start => 4
  | .idle => 3
  | .shutdown | .printToTerminal _ | .writeLog _ | .created => 2
  | .join | .countFallback | .countFinished | .workerLoop => 1
  | .client => 0

/-- The work that is left without further messages. -/
def workLeft (m : Machine (LogThread κ) Logger LogFrame) : ℕ :=
  weigh remaining m.frames + 3 * m.shared.logQueue.length

omit [DecidableEq κ] in
theorem workLeft_lt {R : Multiset LogFrame} (hs : LogStep queueSize m.shared f m'.shared fs)
    (hf : f ≠ .client) (hF : m.frames = f ::ₘ R) (hF' : m'.frames = (fs : Multiset LogFrame) + R) :
    workLeft m' < workLeft m ∧ m'.shared.passed = m.shared.passed := by
  unfold workLeft
  rw [hF, hF', weigh_cons, weigh_add]
  generalize m'.shared = s' at hs
  cases hs with
  | log => exact absurd rfl hf
  | consume hq => exact ⟨by simp [hq]; omega, rfl⟩
  | push => exact ⟨by simp; omega, rfl⟩
  | _ => exact ⟨by simp, rfl⟩

omit [DecidableEq κ] in
/-- As long as the run is not at its end, some thread can go on without a further message. -/
theorem LoggerSound.enabled (h : LoggerSound queueSize m)
    (hend : ¬ (m.shared.returned = true ∧ Idle m)) :
    ∃ t f rest, m.stack t = f :: rest ∧ f ≠ .client ∧
      execLogger queueSize m.shared none f ≠ none := by
  have howner : OwnerShape m.shared (m.stack .owner) := h.shape .owner
  generalize hso : m.stack .owner = so at howner
  cases howner with
  | start | idle | shutdown =>
    exact ⟨.owner, _, _, hso, LogFrame.noConfusion, by simp [execLogger]⟩
  | join hb hstop =>
    have hworker : WorkerShape m.shared (m.stack .worker) := h.shape .worker
    generalize hsw : m.stack .worker = sw at hworker
    cases hworker with
    | exited he => exact ⟨.owner, _, _, hso, LogFrame.noConfusion, by simp [execLogger, he]⟩
    | created => exact ⟨.worker, _, _, hsw, LogFrame.noConfusion, by simp [execLogger, hb]⟩
    | writing | counting => exact ⟨.worker, _, _, hsw, LogFrame.noConfusion, by simp [execLogger]⟩
    | loop =>
      refine ⟨.worker, _, _, hsw, LogFrame.noConfusion, ?_⟩
      simp only [execLogger, hstop, if_true]
      split <;> simp
  | returned _ hstop _ hr =>
    have hbusy : ∃ k, m.stack (.client k) ≠ [.client] := by
      by_contra hn
      push Not at hn
      exact hend ⟨hr, hn⟩
    obtain ⟨k, hk⟩ := hbusy
    have hclient : ClientShape (m.stack (.client k)) := h.shape (.client k)
    generalize hsc : m.stack (.client k) = sc at hclient hk
    cases hclient with
    | client => exact absurd rfl hk
    | helper => exact ⟨.client k, _, _, hsc, LogFrame.noConfusion, by simp [execLogger, hstop]⟩
    | printing | counting =>
      exact ⟨.client k, _, _, hsc, LogFrame.noConfusion, by simp [execLogger]⟩

/-- From every state the logger can be shut down with no call left in progress, and every item
passed so far has then been output. -/
theorem leads_settled (h : (asyncLogger configured κ).Reachable m) :
    ∃ m', (asyncLogger configured κ).Leads m m' ∧ m'.shared.returned = true ∧ Idle m' ∧
      m'.shared.passed = m.shared.passed := by
  induction hb : workLeft m using Nat.strong_induction_on generalizing m with
  | _ b ih =>
    by_cases hend : m.shared.returned = true ∧ Idle m
    · exact ⟨m, .refl, hend.1, hend.2, rfl⟩
    · obtain ⟨t, f, rest, hs, hf, hexec⟩ := (loggerSound_of_reachable h).enabled hend
      have hstep : (asyncLogger configured κ).step m (t, none) ≠ none := fun hnone =>
        hexec (Machine.exec_of_step_eq_none hnone hs)
      obtain ⟨m₁, hm₁⟩ := Option.ne_none_iff_exists'.mp hstep
      obtain ⟨f', rest', fs, R, hs', he, -, hF, hF'⟩ := Machine.frames_step hm₁
      obtain ⟨rfl, rfl⟩ := List.cons.inj (hs.symm.trans hs')
      obtain ⟨hlt, hpassed⟩ := workLeft_lt (LogStep.of_exec he) hf hF hF'
      obtain ⟨m', hl, hr, hi, hp⟩ := ih _ (hb ▸ hlt) (.step h trivial hm₁) rfl
      exact ⟨m', .head ⟨_, hm₁⟩ hl, hr, hi, hp.trans hpassed⟩

/-- What holds of the messages in every state of the logger. -/
structure Kept (queueSize : ℕ) (m : Machine (LogThread κ) Logger LogFrame) : Prop where
  /-- every item passed is in one place, as often as it was passed: with the call or the worker
  that has it, in the queue, or among the outputs -/
  items : (m.shared.passed : Multiset LogItem) =
    m.shared.written + m.shared.terminal + m.shared.logQueue + weigh inHand m.frames
  bound : m.shared.logQueue.length ≤ queueSize
  terminal : ∀ item ∈ m.shared.terminal, item.level.Waits → m.shared.stop = true
  settled : m.shared.returned = true → Idle m → Settled m.shared

/-- No message is lost and none is output twice, whatever the order of the steps; the queue keeps
its bound, and warnings and errors go to the terminal only once the logger is stopped. When
`shutdown` has returned and no call is in progress, all messages have been output, and every run
can be brought to this end. -/
theorem messages_kept (h : (asyncLogger configured κ).Reachable m) :
    Kept (maxQueueSize configured) m ∧
      ∃ m', (asyncLogger configured κ).Leads m m' ∧ m'.shared.returned = true ∧ Idle m' ∧
        m'.shared.passed = m.shared.passed :=
  have hs := loggerSound_of_reachable h
  ⟨⟨hs.accounted.items, hs.accounted.bound, hs.accounted.terminal, hs.settled⟩, leads_settled h⟩

def errorItem : LogItem := ⟨0, 1, ['e'], .error⟩

def infoItem : LogItem := ⟨0, 1, ['i'], .info⟩

/-- The steps of one thread that logs an error and a message, which finds the queue full, while
the logger is started and shut down. -/
def errorThenInfo : List (LogThread Unit × Option LogItem) :=
  [(.owner, none), (.client (), some errorItem), (.client (), none), (.client (), some infoItem),
    (.client (), none), (.client (), none), (.client (), none)] ++
    List.replicate 2 (LogThread.owner, none) ++ List.replicate 5 (LogThread.worker, none) ++
      [(LogThread.owner, none)]

/-- The error is written by the worker and the message is on the terminal. -/
theorem messages_kept_full :
    let m := (asyncLogger 1 Unit).run errorThenInfo
    m.shared.written = [errorItem] ∧ m.shared.terminal = [infoItem] ∧ Settled m.shared :=
  ⟨by decide, by decide,
    (messages_kept (System.reachable_run (asyncLogger 1 Unit) errorThenInfo)).1.settled
      (by decide) fun _ => rfl⟩

end AsyncLogger

end ScanDaemon
