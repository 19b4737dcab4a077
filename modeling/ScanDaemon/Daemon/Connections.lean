import Mathlib.Tactic.DeriveFintype
import ScanDaemon.Concurrency.JobQueue
import ScanDaemon.Daemon.Router
import ScanDaemon.Library.Machine

/-! # Connections

The accept loop hands the descriptor of a connection to the queue, from which a
worker takes it. At each moment one of them holds a connection that is not
closed yet, and what the holder still does to it completes what has been done:
one response, and then the close.
-/

namespace ScanDaemon

open Interleave

namespace HttpServer

/-- What is done to the descriptor of a connection. -/
inductive SocketEvent
  | response (r : Response)
  | close
  deriving DecidableEq

/-- `write_response(fd, status_code, "text/html", "")` -/
def plainResponse (statusCode : ℕ) : SocketEvent := .response ⟨statusCode, "text/html", []⟩

/-- `handle_request` for what has been read from the connection. -/
def handleEvents (env : Env) (inDrain : Bool) (reads : List (List Char)) : List SocketEvent :=
  match handleRequest reads with
  | none => [plainResponse 400, .close]
  | some request =>
    let reply := router env inDrain request
    reply.written.map .response ++ (if reply.code ≠ 0 then [plainResponse reply.code] else []) ++
      [.close]

/-- The program points of the threads. -/
inductive ServerFrame (κ : Type)
  /-- the head of the loop of `run` -/
  | loop
  /-- `setup_client_socket` -/
  | setup (c : κ)
  | submit (c : κ)
  /-- what is still to be done to the descriptor -/
  | emit (c : κ) (es : List SocketEvent)
  | workForever (i : ℕ)
  /-- `job_queue.shutdown()` behind the loop of `work_forever` -/
  | exit (i : ℕ)
  | handle (c : κ)
  /-- `fd_pool.shutdown()` -/
  | poolShutdown
  | join (i : ℕ)
  /-- `HttpServer::shutdown` -/
  | shutdown

/-- The threads of a server with `numThreads` workers. -/
inductive ServerThread (numThreads : ℕ)
  | run
  | worker (i : Fin numThreads)
  | closer
  deriving DecidableEq, Fintype

/-- What the outside world supplies to a step. -/
structure ServerInput (κ : Type) where
  /-- the connection that `accept` returns; `none` is −1 -/
  connection : Option κ
  /-- whether the receive timeout can be set -/
  timeoutSet : Bool
  reads : List (List Char)
  inDrain : Bool
  env : Env

/-- The server; a connection is not identified by the number of its descriptor, which may be
used again. -/
structure Server (queueSize : ℕ) (κ : Type) where
  fdQueue : JobQueue .fifo queueSize κ
  stopFlag : Bool
  accepted : List κ
  /-- the connections whose receive timeout could not be set -/
  unset : List κ
  log : κ → List SocketEvent
  /-- the workers that have left `work_forever` -/
  exited : List ℕ
  /-- whether `run` has returned -/
  returned : Bool

namespace Server

variable {queueSize : ℕ} {κ : Type}

def new (metrics : QueueMetrics) : Server queueSize κ where
  fdQueue := .new metrics
  stopFlag := false
  accepted := []
  unset := []
  log := fun _ => []
  exited := []
  returned := false

@[simps] def withQueue (s : Server queueSize κ) (queue : JobQueue .fifo queueSize κ) :
    Server queueSize κ := { s with fdQueue := queue }

variable [DecidableEq κ]

/-- A step of the thread that has the descriptor. -/
@[simps] def emit (s : Server queueSize κ) (c : κ) (e : SocketEvent) : Server queueSize κ :=
  { s with log := Function.update s.log c (s.log c ++ [e]) }

end Server

section Exec

variable {queueSize : ℕ} {κ : Type} [DecidableEq κ] (numThreads : ℕ) (s : Server queueSize κ)
  (x : ServerInput κ)

/-- The answers of the loop of `run` to a connection that has not been queued. -/
def refusal : SubmitResult → List SocketEvent
  | .pushed => []
  | .full => [.response ⟨429, "application/json",
      "\x7b\"error\": \"Server busy, please submit later\" \x7d".toList⟩, .close]
  | .shutdown => [plainResponse 503, .close]

def execServer : ServerFrame κ → Option (Server queueSize κ × List (ServerFrame κ))
  | .loop =>
    if s.stopFlag then some (s, [.poolShutdown])
    else match x.connection with
      | none => some (s, [.loop])
      | some c =>
        -- a connection is accepted once
        if c ∈ s.accepted then none
        else some ({ s with accepted := s.accepted ++ [c] }, [.setup c, .loop])
  | .setup c =>
    if x.timeoutSet then some (s, [.submit c])
    else some ({ s with unset := c :: s.unset }, [.emit c [.close]])
  | .submit c =>
    let (result, queue) := s.fdQueue.tryPush c
    some (s.withQueue queue, [.emit c (refusal result)])
  | .emit _ [] => some (s, [])
  | .emit c (e :: es) => some (s.emit c e, [.emit c es])
  | .workForever i => match s.fdQueue.pop with
    | none => none
    | some none => some (s, [.exit i])
    | some (some (c, queue)) => some (s.withQueue queue, [.handle c, .workForever i])
  | .exit i => some ({ s.withQueue s.fdQueue.shutdown with exited := i :: s.exited }, [])
  | .handle c => some (s, [.emit c (handleEvents x.env x.inDrain x.reads)])
  | .poolShutdown => some (s.withQueue s.fdQueue.shutdown, [.join 0])
  | .join i =>
    if i < numThreads then if i ∈ s.exited then some (s, [.join (i + 1)]) else none
    else some ({ s with returned := true }, [])
  | .shutdown => some ({ s with stopFlag := true }, [])

end Exec

/-- A server whose pool has been started. -/
def server (queueSize : ℕ) (κ : Type) [DecidableEq κ] (numThreads : ℕ) (metrics : QueueMetrics) :
    System (Machine (ServerThread numThreads) (Server queueSize κ) (ServerFrame κ))
      (ServerThread numThreads × ServerInput κ) where
  init := ⟨.new metrics, fun
    | .run => [.loop]
    | .worker i => [.workForever i]
    | .closer => [.shutdown]⟩
  step m a := m.step (execServer numThreads) a.1 a.2

variable {queueSize numThreads : ℕ} {κ : Type} [DecidableEq κ] {s s' : Server queueSize κ}
  {x : ServerInput κ} {f g : ServerFrame κ} {fs rest : List (ServerFrame κ)} {c d : κ}
  {es : List SocketEvent}

/-! ## What a step can do -/

/-- `handle_request` writes one response and closes the descriptor. -/
theorem handleEvents_eq (env : Env) (inDrain : Bool) (reads : List (List Char)) :
    ∃ r, handleEvents env inDrain reads = [.response r, .close] := by
  unfold handleEvents
  cases handleRequest reads with
  | none => exact ⟨_, rfl⟩
  | some request =>
    rcases router_answers env inDrain request with ⟨r, hr, hcode⟩ | ⟨hr, hcode⟩
    · exact ⟨r, by simp [hr, hcode]⟩
    · exact ⟨⟨(router env inDrain request).code, "text/html", []⟩,
        by simp [hr, hcode, plainResponse]⟩

inductive ServerStep (numThreads : ℕ) (s : Server queueSize κ) :
    ServerFrame κ → Server queueSize κ → List (ServerFrame κ) → Prop where

  | stop : s.stopFlag = true → ServerStep numThreads s .loop s [.poolShutdown]

  | retry : ServerStep numThreads s .loop s [.loop]

  | accept {c : κ} : c ∉ s.accepted →
      ServerStep numThreads s .loop { s with accepted := s.accepted ++ [c] } [.setup c, .loop]

  | setup {c : κ} : ServerStep numThreads s (.setup c) s [.submit c]

  | setup_failed {c : κ} : ServerStep numThreads s (.setup c) { s with unset := c :: s.unset }
      [.emit c [.close]]

  | pushed {c : κ} : s.fdQueue.stopFlag = false →
      ServerStep numThreads s (.submit c) (s.withQueue (s.fdQueue.pushBack c)) [.emit c []]

  | refused {c : κ} {r : Response} : ServerStep numThreads s (.submit c)
      (s.withQueue s.fdQueue.countFailed) [.emit c [.response r, .close]]

  | emitted {c : κ} : ServerStep numThreads s (.emit c []) s []

  | emit {c : κ} {e : SocketEvent} {es : List SocketEvent} :
      ServerStep numThreads s (.emit c (e :: es)) (s.emit c e) [.emit c es]

  | take {i : ℕ} {c : κ} {queued : List κ} : s.fdQueue.container = c :: queued →
      ServerStep numThreads s (.workForever i) (s.withQueue (s.fdQueue.removed queued))
        [.handle c, .workForever i]

  | closed {i : ℕ} : s.fdQueue.stopFlag = true → s.fdQueue.container = [] →
      ServerStep numThreads s (.workForever i) s [.exit i]

  | exit {i : ℕ} : ServerStep numThreads s (.exit i)
      { s.withQueue s.fdQueue.shutdown with exited := i :: s.exited } []

  | handle {c : κ} {r : Response} :
      ServerStep numThreads s (.handle c) s [.emit c [.response r, .close]]

  | pool_shutdown : ServerStep numThreads s .poolShutdown (s.withQueue s.fdQueue.shutdown)
      [.join 0]

  | joined {i : ℕ} : i ∈ s.exited → ServerStep numThreads s (.join i) s [.join (i + 1)]

  | returned {i : ℕ} : numThreads ≤ i →
      ServerStep numThreads s (.join i) { s with returned := true } []

  | shutdown : ServerStep numThreads s .shutdown { s with stopFlag := true } []

theorem ServerStep.of_exec (h : execServer numThreads s x f = some (s', fs)) :
    ServerStep numThreads s f s' fs := by
  cases f with
  | loop =>
    simp only [execServer] at h
    split at h
    next hs => cases h; exact .stop hs
    · split at h
      · cases h; exact .retry
      · split at h
        · cases h
        next hc => cases h; exact .accept hc
  | setup c =>
    simp only [execServer] at h
    split at h
    · cases h; exact .setup
    · cases h; exact .setup_failed
  | submit c =>
    simp only [execServer] at h
    rcases ht : s.fdQueue.tryPush c with ⟨result, queue⟩
    rw [ht] at h
    cases result with
    | pushed =>
      obtain ⟨hs, -, rfl⟩ := JobQueue.tryPush_pushed ht
      cases h
      exact .pushed hs
    | full =>
      obtain ⟨-, -, rfl⟩ := JobQueue.tryPush_full ht
      cases h
      exact .refused
    | shutdown =>
      obtain ⟨-, rfl⟩ := JobQueue.tryPush_shutdown ht
      cases h
      exact .refused
  | emit c es =>
    cases es with
    | nil => cases h; exact .emitted
    | cons e es => cases h; exact .emit
  | workForever i =>
    simp only [execServer] at h
    split at h
    · cases h
    next hp =>
      cases h
      obtain ⟨hc, hs⟩ := JobQueue.pop_closed hp
      exact .closed hs hc
    next c queue hp =>
      cases h
      obtain ⟨queued, hc, rfl⟩ := JobQueue.pop_fifo hp
      exact .take hc
  | exit i => cases h; exact .exit
  | handle c =>
    simp only [execServer] at h
    obtain ⟨r, hr⟩ := handleEvents_eq x.env x.inDrain x.reads
    rw [hr] at h
    cases h
    exact .handle
  | poolShutdown => cases h; exact .pool_shutdown
  | join i =>
    simp only [execServer] at h
    split at h
    · split at h
      next he => cases h; exact .joined he
      · cases h
    next hi => cases h; exact .returned (not_lt.mp hi)
  | shutdown => cases h; exact .shutdown

/-! ## Who has a connection -/

/-- A frame has a connection if it still has to close it. -/
@[simp] def holds (c : κ) : ServerFrame κ → ℕ
  | .setup d | .submit d | .handle d => if d = c then 1 else 0
  | .emit d es => if d = c ∧ es ≠ [] then 1 else 0
  | _ => 0

/-- What is done to a connection in the end. -/
def Server.Finishes (s : Server queueSize κ) (c : κ) (l : List SocketEvent) : Prop :=
  if c ∈ s.unset then l = [.close] else ∃ r, l = [.response r, .close]

/-- What is still to be done to a connection completes what has been done. -/
def FrameSound (s : Server queueSize κ) : ServerFrame κ → Prop
  | .setup c | .submit c | .handle c => s.log c = [] ∧ c ∉ s.unset
  | .emit c es => es ≠ [] → s.Finishes c (s.log c ++ es)
  | _ => True

/-- What holds in every state of the server for the connections. -/
structure ServerSound (m : Machine (ServerThread numThreads) (Server queueSize κ) (ServerFrame κ)) :
    Prop where
  nodup : m.shared.accepted.Nodup
  owned : ∀ c, m.shared.accepted.count c = (m.shared.log c).count .close +
    m.shared.fdQueue.container.count c + weigh (holds c) m.frames
  frames : ∀ f ∈ m.frames, FrameSound m.shared f
  untouched : ∀ c, c ∉ m.shared.accepted ∨ c ∈ m.shared.fdQueue.container →
    m.shared.log c = [] ∧ c ∉ m.shared.unset
  closed : ∀ c, .close ∈ m.shared.log c → m.shared.Finishes c (m.shared.log c)

variable {m m' : Machine (ServerThread numThreads) (Server queueSize κ) (ServerFrame κ)}
  {a : ServerThread numThreads × ServerInput κ} {metrics : QueueMetrics}
  {R : Multiset (ServerFrame κ)}

/-- Only the frame that has a connection does anything to it. -/
theorem ServerStep.unchanged (hs : ServerStep numThreads s f s' fs) (hf : holds c f = 0) :
    s'.log c = s.log c ∧ (c ∈ s'.unset ↔ c ∈ s.unset) := by
  cases hs with
  | @setup_failed d =>
    have hd : d ≠ c := by simpa using hf
    simp [Ne.symm hd]
  | @emit d e es =>
    have hd : d ≠ c := by simpa using hf
    simp [Function.update_of_ne (Ne.symm hd)]
  | _ => exact ⟨rfl, Iff.rfl⟩

theorem Server.Finishes.congr {l : List SocketEvent} (h : s.Finishes c l)
    (hu : c ∈ s'.unset ↔ c ∈ s.unset) : s'.Finishes c l := by
  unfold Finishes at h ⊢
  simpa only [hu] using h

theorem FrameSound.congr (h : FrameSound s g)
    (hg : ∀ c, holds c g ≠ 0 → s'.log c = s.log c ∧ (c ∈ s'.unset ↔ c ∈ s.unset)) :
    FrameSound s' g := by
  cases g with
  | setup c | submit c | handle c =>
    obtain ⟨hlog, hu⟩ := hg c (by simp)
    exact ⟨hlog.trans h.1, hu.not.mpr h.2⟩
  | emit c es =>
    intro hes
    obtain ⟨hlog, hu⟩ := hg c (by simp [hes])
    rw [hlog]
    exact (h hes).congr hu
  | _ => trivial

/-- The frames that a step leaves behind are as sound as the one it executes. -/
theorem ServerStep.frameSound (hs : ServerStep numThreads s f s' fs) (hf : FrameSound s f)
    (hu : ∀ c, c ∉ s.accepted ∨ c ∈ s.fdQueue.container → s.log c = [] ∧ c ∉ s.unset) :
    ∀ g ∈ fs, FrameSound s' g := by
  cases hs with
  | accept hc => simpa [FrameSound] using hu _ (.inl hc)
  | setup => simpa [FrameSound] using hf
  | setup_failed => simp [FrameSound, Server.Finishes, hf.1]
  | handle => simp [FrameSound, Server.Finishes, hf.1, hf.2]
  | refused => simp [FrameSound, Server.Finishes, hf.1, hf.2]
  | @emit c e es =>
    have hfin := hf (by simp)
    rintro g hg
    obtain rfl := List.mem_singleton.mp hg
    intro _
    simpa [Server.Finishes] using hfin
  | @take i c queued hc =>
    have := hu c (.inr (by simp [hc]))
    simpa [FrameSound] using this
  | _ => simp [FrameSound]

/-- A connection is closed by the last event. -/
theorem Server.Finishes.cases {e : SocketEvent} {l : List SocketEvent}
    (h : s.Finishes c (l ++ e :: es)) :
    (e = .close ∧ es = []) ∨ ∃ r, e = .response r ∧ es = [.close] := by
  unfold Finishes at h
  split at h
  · cases l with
    | nil => exact Or.inl (by simpa using h)
    | cons => simp at h
  · obtain ⟨r, hr⟩ := h
    match l with
    | [] => exact Or.inr ⟨r, by simpa using hr⟩
    | [d] => exact Or.inl (by simpa using (List.cons.inj hr).2)
    | d :: d' :: l => simp at hr

/-- A step leaves a connection with the thread that has it, hands it on, or closes it. -/
theorem ServerStep.owned (hs : ServerStep numThreads s f s' fs) (hf : FrameSound s f)
    (h : s.accepted.count c = (s.log c).count .close + s.fdQueue.container.count c +
      weigh (holds c) (f ::ₘ R)) :
    s'.accepted.count c = (s'.log c).count .close + s'.fdQueue.container.count c +
      weigh (holds c) ((fs : Multiset (ServerFrame κ)) + R) := by
  rw [weigh_cons] at h
  cases hs with
  | @accept d hd =>
    simp only [List.count_append, List.count_singleton, beq_iff_eq, weigh_add, weigh_coe_cons,
      holds, h]
    simp
    omega
  | @emit d e es =>
    rcases (hf (by simp)).cases with ⟨rfl, rfl⟩ | ⟨r, rfl, rfl⟩
    · by_cases hd : d = c
      · subst hd
        simp [h]
        omega
      · simp [hd, Ne.symm hd, h]
    · by_cases hd : d = c
      · subst hd
        simp [h]
      · simp [hd, Ne.symm hd, h]
  | @pushed d =>
    simp [List.count_append, List.count_singleton, h]
    omega
  | @take i d queued hq =>
    simp [hq, List.count_cons, h]
    omega
  | _ => simpa using h

theorem ServerStep.nodup (hs : ServerStep numThreads s f s' fs) (h : s.accepted.Nodup) :
    s'.accepted.Nodup := by
  cases hs with
  | accept hc => exact List.nodup_append'.mpr ⟨h, List.nodup_singleton _, by simpa using hc⟩
  | _ => exact h

theorem ServerStep.accepted_subset (hs : ServerStep numThreads s f s' fs) :
    s.accepted ⊆ s'.accepted := by
  cases hs with
  | accept => exact List.subset_append_left _ _
  | _ => exact List.Subset.refl _

/-- A connection enters the queue untouched. -/
theorem ServerStep.queued (hs : ServerStep numThreads s f s' fs) (hc : c ∈ s'.fdQueue.container) :
    c ∈ s.fdQueue.container ∨ f = .submit c ∧ s'.log c = s.log c ∧ s'.unset = s.unset := by
  cases hs with
  | @pushed d =>
    rcases List.mem_append.mp hc with hc | hc
    · exact Or.inl hc
    · obtain rfl := List.mem_singleton.mp hc
      exact Or.inr ⟨rfl, rfl, rfl⟩
  | take hq =>
    rw [hq]
    exact Or.inl (List.mem_cons_of_mem _ hc)
  | _ => exact Or.inl hc

/-- A connection that has just been closed is finished. -/
theorem ServerStep.closed_finishes (hs : ServerStep numThreads s f s' fs) (hf : FrameSound s f)
    (hn : .close ∉ s.log c) (hc : .close ∈ s'.log c) : s'.Finishes c (s'.log c) := by
  cases hs with
  | @emit d e es =>
    by_cases hd : d = c
    · subst hd
      have hfin := hf (by simp)
      rcases hfin.cases with ⟨rfl, rfl⟩ | ⟨r, rfl, rfl⟩
      · rw [Server.emit_log, Function.update_self]
        exact hfin
      · simp [hn] at hc
    · simp [Function.update_of_ne (Ne.symm hd), hn] at hc
  | _ => exact absurd hc hn

theorem ServerSound.step (h : ServerSound m)
    (hs : (server queueSize κ numThreads metrics).step m a = some m') : ServerSound m' := by
  obtain ⟨f, rest, fs, R, -, he, -, hF, hF'⟩ := Machine.frames_step hs
  have hst := ServerStep.of_exec he
  have hf : FrameSound m.shared f := h.frames f (by simp [hF])
  have howned := h.owned
  simp only [hF, weigh_cons] at howned
  have hone := List.nodup_iff_count_le_one.mp h.nodup
  constructor
  · exact hst.nodup h.nodup
  · intro c
    rw [hF']
    exact hst.owned hf (by simpa using howned c)
  · rw [hF']
    intro g hg
    rcases Multiset.mem_add.mp hg with hg | hg
    · exact hst.frameSound hf h.untouched g hg
    · refine (h.frames g (by simp [hF, hg])).congr fun c hc => hst.unchanged ?_
      have := le_weigh (w := holds c) hg
      have := howned c
      have := hone c
      omega
  · intro c hc
    have unchanged : c ∉ m.shared.accepted ∨ c ∈ m.shared.fdQueue.container →
        m'.shared.log c = [] ∧ c ∉ m'.shared.unset := by
      intro hc
      obtain ⟨hlog, hu⟩ := hst.unchanged (c := c) (by
        have := howned c
        have := hone c
        rcases hc with hc | hc
        · have := List.count_eq_zero.mpr hc
          omega
        · have := List.count_pos_iff.mpr hc
          omega)
      rw [hlog, hu]
      exact h.untouched c hc
    rcases hc with hc | hc
    · exact unchanged (.inl fun hm => hc (hst.accepted_subset hm))
    · rcases hst.queued hc with hc | ⟨rfl, hlog, hu⟩
      · exact unchanged (.inr hc)
      · rw [hlog, hu]
        exact hf
  · intro c hc
    by_cases hn : .close ∈ m.shared.log c
    · obtain ⟨hlog, hu⟩ := hst.unchanged (c := c) (by
        have := howned c
        have := hone c
        have := List.count_pos_iff.mpr hn
        omega)
      rw [hlog]
      exact (h.closed c hn).congr hu
    · exact hst.closed_finishes hf hn hc

theorem frames_init (hf : f ∈ (server queueSize κ numThreads metrics).init.frames) :
    FrameSound s f ∧ ∀ c, holds c f = 0 := by
  obtain ⟨t, ht⟩ := Machine.mem_frames.mp hf
  cases t with
  | run | closer | worker i =>
    obtain rfl := List.mem_singleton.mp ht
    exact ⟨trivial, fun _ => rfl⟩

theorem serverSound_of_reachable (h : (server queueSize κ numThreads metrics).Reachable m) :
    ServerSound m := by
  refine h.invariant ⟨List.nodup_nil, fun c => ?_, fun f hf => (frames_init hf).1, ?_, ?_⟩
    fun n a n' _ _ hs hn => hn.step hs
  · rw [weigh_eq_zero fun f hf => (frames_init (s := .new metrics) hf).2 c]
    rfl
  · exact fun c _ => ⟨rfl, List.not_mem_nil⟩
  · exact fun c hc => absurd hc List.not_mem_nil

/-! ## The stacks -/

/-- The queue is stopped and empty. -/
def Server.Closed (s : Server queueSize κ) : Prop :=
  s.fdQueue.stopFlag = true ∧ s.fdQueue.container = []

/-- The frames that do something to a connection. -/
inductive Handling : ServerFrame κ → Prop
  | setup (c : κ) : Handling (.setup c)
  | submit (c : κ) : Handling (.submit c)
  | handle (c : κ) : Handling (.handle c)
  | emit (c : κ) (es : List SocketEvent) : Handling (.emit c es)

/-- The stacks of a worker. -/
inductive WorkerShape (s : Server queueSize κ) (i : ℕ) : List (ServerFrame κ) → Prop where

  | waiting : i ∉ s.exited → WorkerShape s i [.workForever i]

  | handling {f : ServerFrame κ} : i ∉ s.exited → Handling f →
      WorkerShape s i [f, .workForever i]

  | exiting : i ∉ s.exited → s.Closed → WorkerShape s i [.exit i]

  | exited : i ∈ s.exited → s.Closed → WorkerShape s i []

/-- The stacks of the thread of `run`. -/
inductive RunShape (numThreads : ℕ) (s : Server queueSize κ) : List (ServerFrame κ) → Prop where

  | loop : s.returned = false → RunShape numThreads s [.loop]

  | handling {f : ServerFrame κ} :
      s.returned = false → Handling f → RunShape numThreads s [f, .loop]

  | stopping : s.returned = false → RunShape numThreads s [.poolShutdown]

  | join {k : ℕ} : s.returned = false → (∀ j < k, j ∈ s.exited) → RunShape numThreads s [.join k]

  | returned : (∀ j < numThreads, j ∈ s.exited) → RunShape numThreads s []

/-- The stacks of a thread. -/
def ServerShape (s : Server queueSize κ) : ServerThread numThreads → List (ServerFrame κ) → Prop
  | .run => RunShape numThreads s
  | .worker i => WorkerShape s i
  | .closer => fun st => st = [.shutdown] ∨ st = []

/-- What no step undoes. -/
structure Server.Grows (s s' : Server queueSize κ) : Prop where
  exited : s.exited ⊆ s'.exited
  closed : s.Closed → s'.Closed

theorem ServerStep.grows (hs : ServerStep numThreads s f s' fs) : s.Grows s' := by
  cases hs with
  | pushed hstop => exact ⟨List.Subset.refl _, fun hc => by simp [hc.1] at hstop⟩
  | take hq => exact ⟨List.Subset.refl _, fun hc => by simp [hc.2] at hq⟩
  | exit => exact ⟨List.subset_cons_self _ _, fun hc => ⟨rfl, hc.2⟩⟩
  | pool_shutdown => exact ⟨List.Subset.refl _, fun hc => ⟨rfl, hc.2⟩⟩
  | _ => exact ⟨List.Subset.refl _, id⟩

theorem ServerStep.exited_cases {j : ℕ} (hs : ServerStep numThreads s f s' fs)
    (hj : j ∈ s'.exited) : j ∈ s.exited ∨ f = .exit j := by
  cases hs with
  | exit =>
    rcases List.mem_cons.mp hj with rfl | hj
    · exact Or.inr rfl
    · exact Or.inl hj
  | _ => exact Or.inl hj

theorem ServerStep.returned_eq (hs : ServerStep numThreads s f s' fs) (hf : ∀ k, f ≠ .join k) :
    s'.returned = s.returned := by
  cases hs with
  | @returned k => exact absurd rfl (hf k)
  | _ => rfl

/-- While a connection is handled, the frame below waits. -/
theorem Handling.step (h : Handling f) (hs : ServerStep numThreads s f s' fs) :
    s'.exited = s.exited ∧ s'.returned = s.returned ∧ (fs = [] ∨ ∃ g, fs = [g] ∧ Handling g) := by
  cases h with
  | setup =>
    cases hs with
    | setup => exact ⟨rfl, rfl, Or.inr ⟨_, rfl, .submit _⟩⟩
    | setup_failed => exact ⟨rfl, rfl, Or.inr ⟨_, rfl, .emit _ _⟩⟩
  | submit =>
    cases hs with
    | pushed | refused => exact ⟨rfl, rfl, Or.inr ⟨_, rfl, .emit _ _⟩⟩
  | handle =>
    cases hs with
    | handle => exact ⟨rfl, rfl, Or.inr ⟨_, rfl, .emit _ _⟩⟩
  | emit =>
    cases hs with
    | emitted => exact ⟨rfl, rfl, Or.inl rfl⟩
    | emit => exact ⟨rfl, rfl, Or.inr ⟨_, rfl, .emit _ _⟩⟩

omit [DecidableEq κ] in
theorem WorkerShape.mono {i : ℕ} {st : List (ServerFrame κ)} (h : WorkerShape s i st)
    (hg : s.Grows s') (hi : i ∈ s'.exited → i ∈ s.exited) : WorkerShape s' i st := by
  cases h with
  | waiting hn => exact .waiting (mt hi hn)
  | handling hn hf => exact .handling (mt hi hn) hf
  | exiting hn hc => exact .exiting (mt hi hn) (hg.closed hc)
  | exited he hc => exact .exited (hg.exited he) (hg.closed hc)

theorem WorkerShape.step {i : ℕ} (h : WorkerShape s i (f :: rest))
    (hs : ServerStep numThreads s f s' fs) : WorkerShape s' i (fs ++ rest) := by
  cases h with
  | waiting hn =>
    cases hs with
    | take hq => exact .handling hn (.handle _)
    | closed hstop hc => exact .exiting hn ⟨hstop, hc⟩
  | handling hn hf =>
    obtain ⟨he, -, rfl | ⟨g, rfl, hg⟩⟩ := hf.step hs
    · exact .waiting (he ▸ hn)
    · exact .handling (he ▸ hn) hg
  | exiting hn hc =>
    cases hs with
    | exit => exact .exited List.mem_cons_self ⟨rfl, hc.2⟩

omit [DecidableEq κ] in
theorem RunShape.mono {st : List (ServerFrame κ)} (h : RunShape numThreads s st)
    (hg : s.Grows s') (hr : s'.returned = s.returned) :
    RunShape numThreads s' st := by
  cases h with
  | loop h => exact .loop (hr.trans h)
  | handling h hf => exact .handling (hr.trans h) hf
  | stopping h => exact .stopping (hr.trans h)
  | join h hj => exact .join (hr.trans h) fun j hk => hg.exited (hj j hk)
  | returned hj => exact .returned fun j hk => hg.exited (hj j hk)

theorem RunShape.step (h : RunShape numThreads s (f :: rest))
    (hs : ServerStep numThreads s f s' fs) : RunShape numThreads s' (fs ++ rest) := by
  cases h with
  | loop hr =>
    cases hs with
    | stop => exact .stopping hr
    | retry => exact .loop hr
    | accept => exact .handling hr (.setup _)
  | handling hr hf =>
    obtain ⟨-, hret, rfl | ⟨g, rfl, hg⟩⟩ := hf.step hs
    · exact .loop (hret.trans hr)
    · exact .handling (hret.trans hr) hg
  | stopping hr =>
    cases hs with
    | pool_shutdown => exact .join hr fun j hj => absurd hj (Nat.not_lt_zero j)
  | join hr hj =>
    cases hs with
    | joined he =>
      refine .join hr fun j hk => ?_
      rcases Nat.lt_succ_iff_lt_or_eq.mp hk with hk | rfl
      · exact hj j hk
      · exact he
    | returned hn => exact .returned fun j hk => hj j (hk.trans_le hn)

theorem ServerShape.step {t : ServerThread numThreads} (h : ServerShape s t (f :: rest))
    (hs : ServerStep numThreads s f s' fs) : ServerShape s' t (fs ++ rest) := by
  cases t with
  | run => exact RunShape.step h hs
  | worker i => exact WorkerShape.step h hs
  | closer =>
    rcases h with h | h
    · obtain ⟨rfl, rfl⟩ := List.cons.inj h
      cases hs
      exact Or.inr rfl
    · cases h

omit [DecidableEq κ] in
/-- The thread of a frame by which the server winds down. -/
theorem ServerShape.thread {t : ServerThread numThreads} (h : ServerShape s t (f :: rest)) :
    (∀ k, f = .join k → t = .run) ∧
      ∀ k, f = .exit k → ∃ i : Fin numThreads, (i : ℕ) = k ∧ t = .worker i := by
  cases t with
  | run =>
    refine ⟨fun _ _ => rfl, ?_⟩
    rintro k rfl
    cases h with
    | handling _ hf => cases hf
  | worker i =>
    constructor
    · rintro k rfl
      cases h with
      | handling _ hf => cases hf
    · rintro k rfl
      cases h with
      | handling _ hf => cases hf
      | exiting => exact ⟨i, rfl, rfl⟩
  | closer =>
    rcases h with h | h
    · obtain ⟨rfl, -⟩ := List.cons.inj h
      exact ⟨fun _ hk => (nomatch hk), fun _ hk => (nomatch hk)⟩
    · cases h

theorem serverShape_of_reachable (h : (server queueSize κ numThreads metrics).Reachable m) :
    ∀ t, ServerShape m.shared t (m.stack t) := by
  refine h.invariant (P := fun m => ∀ t, ServerShape m.shared t (m.stack t)) ?_
    fun n a n' _ _ hs hn => ?_
  · rintro (_ | i | _)
    · exact .loop rfl
    · exact .waiting List.not_mem_nil
    · exact Or.inl rfl
  · obtain ⟨f, rest, fs, -, hf, he, hstack, -, -⟩ := Machine.frames_step hs
    have hst := ServerStep.of_exec he
    have hsh := hn a.1
    rw [hf] at hsh
    intro t
    rw [hstack]
    by_cases ht : t = a.1
    · subst ht
      rw [Function.update_self]
      exact hsh.step hst
    · rw [Function.update_of_ne ht]
      have hmono := hn t
      cases t with
      | run =>
        exact RunShape.mono hmono hst.grows
          (hst.returned_eq fun k hk => ht (hsh.thread.1 k hk).symm)
      | worker i =>
        refine WorkerShape.mono hmono hst.grows fun hi => ?_
        rcases hst.exited_cases hi with hi | hk
        · exact hi
        · obtain ⟨j, hj, ha⟩ := hsh.thread.2 i hk
          exact absurd (by rw [ha, Fin.ext hj]) ht
      | closer => exact hmono

/-! ## Every connection is answered -/

/-- A connection that is not finished is queued or in the hands of a thread. -/
theorem ServerSound.cases (h : ServerSound m) (hc : c ∈ m.shared.accepted) :
    m.shared.Finishes c (m.shared.log c) ∨ c ∈ m.shared.fdQueue.container ∨
      ∃ f ∈ m.frames, holds c f ≠ 0 := by
  have hpos := List.count_pos_iff.mpr hc
  rw [h.owned c] at hpos
  by_cases hclosed : .close ∈ m.shared.log c
  · exact Or.inl (h.closed c hclosed)
  · by_cases hq : c ∈ m.shared.fdQueue.container
    · exact Or.inr (Or.inl hq)
    · rw [List.count_eq_zero.mpr hclosed, List.count_eq_zero.mpr hq, zero_add, zero_add] at hpos
      obtain ⟨f, hf, hh⟩ := exists_of_weigh_pos hpos
      exact Or.inr (Or.inr ⟨f, hf, hh.ne'⟩)

/-- What has been done to a connection is the beginning of what is done in the end. -/
theorem ServerSound.begun (h : ServerSound m) (hc : c ∈ m.shared.accepted) :
    ∃ es, m.shared.Finishes c (m.shared.log c ++ es) := by
  have fresh : m.shared.log c = [] ∧ c ∉ m.shared.unset →
      ∃ es, m.shared.Finishes c (m.shared.log c ++ es) := by
    rintro ⟨hlog, hu⟩
    exact ⟨[plainResponse 400, .close], by simp [Server.Finishes, hlog, hu, plainResponse]⟩
  rcases h.cases hc with hfin | hq | ⟨f, hf, hh⟩
  · exact ⟨[], by rwa [List.append_nil]⟩
  · exact fresh (h.untouched c (Or.inr hq))
  · have hsound := h.frames f hf
    cases f with
    | setup d | submit d | handle d =>
      obtain rfl : d = c := by simpa using hh
      exact fresh hsound
    | emit d es =>
      obtain ⟨rfl, hes⟩ : d = c ∧ es ≠ [] := by simpa using hh
      exact ⟨es, hsound hes⟩
    | _ => exact absurd rfl hh

omit [DecidableEq κ] in
/-- When `run` has returned, all workers have left. -/
theorem returned_exited (hsh : ∀ t, ServerShape m.shared t (m.stack t))
    (hr : m.shared.returned = true) : ∀ j < numThreads, j ∈ m.shared.exited := by
  have hst : RunShape numThreads m.shared (m.stack .run) := hsh .run
  generalize m.stack .run = st at hst
  cases hst with
  | returned hj => exact hj
  | loop h | handling h | stopping h | join h => exact absurd (h.symm.trans hr) (by decide)

omit [DecidableEq κ] in
/-- A worker that has left found the queue stopped and empty. -/
theorem closed_of_exited (hsh : ∀ t, ServerShape m.shared t (m.stack t)) {i : Fin numThreads}
    (hi : (i : ℕ) ∈ m.shared.exited) : m.shared.Closed := by
  have hst : WorkerShape m.shared i (m.stack (.worker i)) := hsh (.worker i)
  generalize m.stack (.worker i) = st at hst
  cases hst with
  | exited _ hc => exact hc
  | waiting hn | handling hn | exiting hn => exact absurd hi hn

/-- The frame that has a connection belongs to a thread that executes it next, and `run` has
not returned. -/
theorem holder_top (hsh : ∀ t, ServerShape m.shared t (m.stack t)) (hf : f ∈ m.frames)
    (hh : holds c f ≠ 0) :
    ∃ t rest, m.stack t = f :: rest ∧ Handling f ∧ m.shared.returned = false := by
  obtain ⟨t, ht⟩ := Machine.mem_frames.mp hf
  have hst := hsh t
  cases t with
  | run =>
    generalize hs : m.stack .run = st at ht hst
    cases hst with
    | handling hr hg =>
      simp only [List.mem_cons, List.not_mem_nil, or_false] at ht
      rcases ht with rfl | rfl
      · exact ⟨_, _, hs, hg, hr⟩
      · exact absurd rfl hh
    | loop | stopping | join =>
      obtain rfl := List.mem_singleton.mp ht
      exact absurd rfl hh
    | returned => cases ht
  | worker i =>
    generalize hs : m.stack (.worker i) = st at ht hst
    cases hst with
    | handling hn hg =>
      simp only [List.mem_cons, List.not_mem_nil, or_false] at ht
      rcases ht with rfl | rfl
      · refine ⟨_, _, hs, hg, ?_⟩
        rw [Bool.eq_false_iff]
        exact fun hr => hn (returned_exited hsh hr i i.isLt)
      · exact absurd rfl hh
    | waiting | exiting =>
      obtain rfl := List.mem_singleton.mp ht
      exact absurd rfl hh
    | exited => cases ht
  | closer =>
    rcases hst with hst | hst
    · rw [hst] at ht
      obtain rfl := List.mem_singleton.mp ht
      exact absurd rfl hh
    · rw [hst] at ht
      cases ht

/-- When `run` has returned on a server with a worker, every connection is finished. -/
theorem ServerSound.finished (h : ServerSound m)
    (hsh : ∀ t, ServerShape m.shared t (m.stack t)) (hn : 0 < numThreads)
    (hr : m.shared.returned = true) (hc : c ∈ m.shared.accepted) :
    m.shared.Finishes c (m.shared.log c) := by
  rcases h.cases hc with hfin | hq | ⟨f, hf, hh⟩
  · exact hfin
  · have hclosed := closed_of_exited hsh (i := ⟨0, hn⟩) (returned_exited hsh hr 0 hn)
    rw [hclosed.2] at hq
    cases hq
  · obtain ⟨-, -, -, -, hret⟩ := holder_top hsh hf hh
    exact absurd (hret.symm.trans hr) (by decide)

/-! ## A connection can always be finished -/

/-- The steps that a frame still takes for the connection that it has. -/
@[simp] def work : ServerFrame κ → ℕ
  | .setup _ => 8
  | .submit _ => 7
  | .handle _ => 4
  | .emit _ es => es.length + 1
  | _ => 0

/-- The work that the server has accepted. -/
def backlog (m : Machine (ServerThread numThreads) (Server queueSize κ) (ServerFrame κ)) : ℕ :=
  weigh work m.frames + 5 * m.shared.fdQueue.container.length

theorem backlog_lt (hs : ServerStep numThreads m.shared f m'.shared fs)
    (hf : Handling f ∨ (∃ i, f = .workForever i) ∧ m.shared.fdQueue.container ≠ [])
    (hF : m.frames = f ::ₘ R) (hF' : m'.frames = (fs : Multiset (ServerFrame κ)) + R) :
    backlog m' < backlog m := by
  unfold backlog
  rw [hF, hF', weigh_cons, weigh_add]
  generalize m'.shared = s' at hs
  rcases hf with hf | ⟨⟨i, rfl⟩, hq⟩
  · cases hf <;> cases hs <;> simp +arith
  · cases hs with
    | take hq => simp [hq]; omega
    | closed _ he => exact absurd he hq

/-- A thread that is handling a connection, or finds one in the queue, is not blocked. -/
theorem exec_ne_none (hf : Handling f ∨ (∃ i, f = .workForever i) ∧ s.fdQueue.container ≠ []) :
    execServer numThreads s x f ≠ none := by
  rcases hf with hf | ⟨⟨i, rfl⟩, hq⟩
  · cases hf with
    | setup c =>
      simp only [execServer]
      split <;> simp
    | submit c | handle c => simp [execServer]
    | emit c es => cases es <;> simp [execServer]
  · simp only [execServer]
    split
    next hp => exact absurd (JobQueue.pop_eq_none hp).1 hq
    · simp
    · simp

/-- As long as a connection is not finished, some thread goes on with the accepted work. -/
theorem exists_step (metrics : QueueMetrics) (h : ServerSound m)
    (hsh : ∀ t, ServerShape m.shared t (m.stack t)) (hn : 0 < numThreads)
    (hc : c ∈ m.shared.accepted) (hfin : ¬ m.shared.Finishes c (m.shared.log c))
    (x : ServerInput κ) :
    ∃ t m', (server queueSize κ numThreads metrics).step m (t, x) = some m' ∧
      backlog m' < backlog m ∧ c ∈ m'.shared.accepted := by
  have enabled : ∃ t f rest, m.stack t = f :: rest ∧
      (Handling f ∨ (∃ i, f = .workForever i) ∧ m.shared.fdQueue.container ≠ []) := by
    rcases (h.cases hc).resolve_left hfin with hq | ⟨f, hf, hh⟩
    · have hq : m.shared.fdQueue.container ≠ [] := List.ne_nil_of_mem hq
      have hst : WorkerShape m.shared 0 (m.stack (.worker ⟨0, hn⟩)) := hsh (.worker ⟨0, hn⟩)
      generalize hs : m.stack (.worker ⟨0, hn⟩) = st at hst
      cases hst with
      | waiting => exact ⟨_, _, _, hs, Or.inr ⟨⟨0, rfl⟩, hq⟩⟩
      | handling _ hg => exact ⟨_, _, _, hs, Or.inl hg⟩
      | exiting _ hcl | exited _ hcl => exact absurd hcl.2 hq
    · obtain ⟨t, rest, hs, hg, -⟩ := holder_top hsh hf hh
      exact ⟨t, f, rest, hs, Or.inl hg⟩
  obtain ⟨t, f, rest, hs, hf⟩ := enabled
  have hstep : m.step (execServer numThreads) t x ≠ none := fun hnone =>
    exec_ne_none hf (Machine.exec_of_step_eq_none hnone hs)
  obtain ⟨m', hm'⟩ := Option.ne_none_iff_exists'.mp hstep
  obtain ⟨f', rest', fs, R, hs', he, -, hF, hF'⟩ := Machine.frames_step hm'
  obtain ⟨rfl, rfl⟩ := List.cons.inj (hs.symm.trans hs')
  have hst := ServerStep.of_exec he
  exact ⟨t, m', hm', backlog_lt hst hf hF hF', hst.accepted_subset hc⟩

/-- A connection can be finished from every state, without further connections. -/
theorem leads_finished (h : (server queueSize κ numThreads metrics).Reachable m)
    (hn : 0 < numThreads) (hc : c ∈ m.shared.accepted) (x : ServerInput κ) :
    ∃ m', (server queueSize κ numThreads metrics).Leads m m' ∧
      m'.shared.Finishes c (m'.shared.log c) := by
  induction hb : backlog m using Nat.strong_induction_on generalizing m with
  | _ b ih =>
    by_cases hfin : m.shared.Finishes c (m.shared.log c)
    · exact ⟨m, .refl, hfin⟩
    · obtain ⟨t, m₁, hs, hlt, hc₁⟩ := exists_step metrics (serverSound_of_reachable h)
        (serverShape_of_reachable h) hn hc hfin x
      obtain ⟨m', hl, hfin'⟩ := ih _ (hb ▸ hlt) (.step h trivial hs) hc₁ rfl
      exact ⟨m', .head ⟨_, hs⟩ hl, hfin'⟩

/-- What the server does to a connection. -/
structure Server.Answers (s : Server queueSize κ) (c : κ) : Prop where
  /-- what has been done is the beginning of one response and the close behind it, or of the
  close alone where the receive timeout could not be set -/
  begun : ∃ es, s.Finishes c (s.log c ++ es)
  /-- when `run` has returned, all of it has been done -/
  finished : s.returned = true → s.Finishes c (s.log c)

/-- On a server with a worker, every accepted connection gets exactly one response and is closed
exactly once behind it, or is closed without a response if its receive timeout cannot be set;
from every state this can be brought to its end. -/
theorem connection_answered {c : κ} (h : (server queueSize κ numThreads metrics).Reachable m)
    (hn : 0 < numThreads) (hc : c ∈ m.shared.accepted) :
    m.shared.Answers c ∧ ∀ _ : ServerInput κ, ∃ m',
      (server queueSize κ numThreads metrics).Leads m m' ∧
        m'.shared.Finishes c (m'.shared.log c) :=
  have hs := serverSound_of_reachable h
  ⟨⟨hs.begun hc, fun hr => hs.finished (serverShape_of_reachable h) hn hr hc⟩,
    leads_finished h hn hc⟩

/-- What the outside world supplies to a step for a connection whose client sends nothing. -/
def silent (connection : Option ℕ) : ServerInput ℕ := ⟨connection, true, [], false, acceptingEnv⟩

/-- One connection is accepted and queued, then the server is shut down. -/
def queuedThenShutdown (numThreads : ℕ) : List (ServerThread numThreads × ServerInput ℕ) :=
  [(.run, silent (some 7)), (.run, silent none), (.run, silent none), (.run, silent none),
    (.closer, silent none), (.run, silent none), (.run, silent none)]

/-- The steps of a worker that takes the connection. -/
def queuedThenHandled : List (ServerThread 1 × ServerInput ℕ) :=
  queuedThenShutdown 1 ++ List.replicate 7 (.worker ⟨0, Nat.one_pos⟩, silent none) ++
    List.replicate 2 (.run, silent none)

/-- The worker answers the connection before `run` returns. -/
theorem connection_answered_silent :
    let m := (server 1 ℕ 1 ⟨some 0, some 0, some 0⟩).run queuedThenHandled
    m.shared.accepted = [7] ∧ m.shared.returned = true ∧ m.shared.Answers 7 :=
  ⟨by decide +kernel, by decide +kernel,
    (connection_answered (System.reachable_run (server 1 ℕ 1 ⟨some 0, some 0, some 0⟩)
      queuedThenHandled) (by decide) (by decide +kernel)).1⟩

/-- Without workers a queued connection is neither answered nor closed. -/
theorem connection_unanswered :
    let T := server 1 ℕ 0 ⟨some 0, some 0, some 0⟩
    let m := T.run (queuedThenShutdown 0 ++ [(.run, silent none)])
    T.Reachable m ∧ 7 ∈ m.shared.accepted ∧ 7 ∉ m.shared.unset ∧ m.shared.returned = true ∧
      m.shared.log 7 = [] ∧ ¬ m.shared.Answers 7 := by
  intro T m
  have hreturned : m.shared.returned = true := by decide +kernel
  have hlog : m.shared.log 7 = [] := by decide +kernel
  refine ⟨System.reachable_run _ _, by decide +kernel, by decide +kernel, hreturned, hlog, ?_⟩
  rintro ⟨-, finished⟩
  have hfin := finished hreturned
  rw [hlog, Server.Finishes] at hfin
  split at hfin
  · cases hfin
  · obtain ⟨r, hr⟩ := hfin
    cases hr

end HttpServer

end ScanDaemon
