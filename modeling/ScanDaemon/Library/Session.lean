import Mathlib.Data.List.Basic
import Mathlib.Tactic.Common

/-! # Sessions of a database client

A client runs statements on one connection. The outcome of every call is given
beforehand, so that a property may be stated for every pattern of failures: a
command (`BEGIN`, `COMMIT`) that fails throws, a statement that fails has no
effect and the client goes on, and where the outcomes end the process stops.
-/

namespace Relational

/-- Why a session ends before its program does. -/
inductive Halt | threw | stopped
  deriving DecidableEq, Repr

/-- The outcomes of the calls of a session, in the order of the calls. A loop of statements, one
for each key, has the outcome of each of them. -/
structure Outcomes (K : Type) where
  execs : List Bool
  steps : List Bool
  loops : List (K → Bool)
  /-- whether the calls after these succeed; otherwise the process stops there -/
  goesOn : Bool

namespace Outcomes

variable {K : Type} (o : Outcomes K)

/-- The outcome of the command number `i`; `none` when the process stops before. -/
def command (i : ℕ) : Option Bool := (o.execs[i]?).or (if o.goesOn then some true else none)

/-- The outcome of the statement number `i`. -/
def statement (i : ℕ) : Option Bool := (o.steps[i]?).or (if o.goesOn then some true else none)

/-- Whether the statement number `i` succeeds. -/
def passes (i : ℕ) : Bool := o.statement i == some true

theorem passes_eq_true {i : ℕ} : o.passes i = true ↔ o.statement i = some true := beq_iff_eq

theorem statement_eq_some {o : Outcomes K} {ok : Bool} {i : ℕ} :
    o.statement i = some ok ↔ (o.statement i).isSome ∧ o.passes i = ok := by
  rw [passes]
  cases o.statement i with
  | none => simp
  | some b => cases b <;> simp [eq_comm]

/-- The outcomes of the statements in the loop number `i`. -/
def rows (i : ℕ) : Option (K → Bool) :=
  (o.loops[i]?).or (if o.goesOn then some fun _ => true else none)

/-- The outcomes after a command. -/
@[simps] def tailExecs : Outcomes K := { o with execs := o.execs.tail }

/-- The outcomes after a statement. -/
@[simps] def tailSteps : Outcomes K := { o with steps := o.steps.tail }

/-- The outcomes after a loop. -/
@[simps] def tailLoops : Outcomes K := { o with loops := o.loops.tail }

@[simp] theorem command_tailExecs (i : ℕ) : o.tailExecs.command i = o.command (i + 1) := by
  simp [command]

@[simp] theorem statement_tailExecs (i : ℕ) : o.tailExecs.statement i = o.statement i := rfl

@[simp] theorem passes_tailExecs (i : ℕ) : o.tailExecs.passes i = o.passes i := rfl

@[simp] theorem rows_tailExecs (i : ℕ) : o.tailExecs.rows i = o.rows i := rfl

@[simp] theorem command_tailSteps (i : ℕ) : o.tailSteps.command i = o.command i := rfl

@[simp] theorem statement_tailSteps (i : ℕ) : o.tailSteps.statement i = o.statement (i + 1) := by
  simp [statement]

@[simp] theorem passes_tailSteps (i : ℕ) : o.tailSteps.passes i = o.passes (i + 1) := by
  rw [passes, statement_tailSteps, passes]

@[simp] theorem rows_tailSteps (i : ℕ) : o.tailSteps.rows i = o.rows i := rfl

@[simp] theorem command_tailLoops (i : ℕ) : o.tailLoops.command i = o.command i := rfl

@[simp] theorem statement_tailLoops (i : ℕ) : o.tailLoops.statement i = o.statement i := rfl

@[simp] theorem passes_tailLoops (i : ℕ) : o.tailLoops.passes i = o.passes i := rfl

/-- No call fails and the process does not stop. -/
def flawless : Outcomes K := ⟨[], [], [], true⟩

end Outcomes

/-- What is stored, and what the open transaction sees. -/
structure Connection (D : Type) where
  durable : D
  working : Option D

namespace Connection

variable {D : Type}

/-- A connection outside any transaction. -/
def closed (d : D) : Connection D := ⟨d, none⟩

/-- A connection whose transaction has changed `d` to `e`. -/
def opened (d e : D) : Connection D := ⟨d, some e⟩

def contents (c : Connection D) : D := c.working.getD c.durable

/-- A statement that succeeds; outside a transaction it is stored at once. -/
def update (f : D → D) (c : Connection D) : Connection D :=
  match c.working with
  | some e => opened c.durable (f e)
  | none => closed (f c.durable)

@[simp] theorem contents_opened {d e : D} : (opened d e).contents = e := rfl
@[simp] theorem update_opened {d e : D} {f : D → D} : (opened d e).update f = opened d (f e) := rfl

theorem update_id (c : Connection D) : c.update id = c := by
  obtain ⟨d, w⟩ := c
  cases w <;> rfl

theorem contents_update {c : Connection D} {f : D → D} : (c.update f).contents = f c.contents := by
  obtain ⟨d, w⟩ := c
  cases w <;> rfl

end Connection

structure Client (D K : Type) where
  outcomes : Outcomes K
  connection : Connection D

namespace Client

variable {D K : Type}

/-- A client whose calls all succeed. -/
def flawless (c : Connection D) : Client D K := ⟨.flawless, c⟩

/-- The client in a transaction that has just begun. -/
def begun (s : Client D K) : Client D K :=
  ⟨s.outcomes.tailExecs, .opened s.connection.durable s.connection.durable⟩

/-- The client after a commit. -/
def committed (s : Client D K) : Client D K :=
  ⟨s.outcomes.tailExecs, .closed s.connection.contents⟩

@[simp] theorem committed_opened {o : Outcomes K} {d e : D} :
    committed ⟨o, .opened d e⟩ = ⟨o.tailExecs, .closed e⟩ := rfl

end Client

abbrev Session (D K : Type) := EStateM Halt (Client D K)

namespace Session

open Connection

variable {D K α β : Type} {s s' : Client D K} {o o' : Outcomes K} {d e : D} {f : D → D}

/-- `BEGIN`, which fails inside a transaction. -/
def begin : Session D K Unit := fun s =>
  match s.outcomes.command 0, s.connection.working with
  | none, _ => .error .stopped s
  | some true, none =>
    .ok () ⟨s.outcomes.tailExecs, opened s.connection.durable s.connection.durable⟩
  | some _, _ => .error .threw ⟨s.outcomes.tailExecs, s.connection⟩

/-- `COMMIT`, which fails outside a transaction and leaves the transaction open when it fails. -/
def commit : Session D K Unit := fun s =>
  match s.outcomes.command 0, s.connection.working with
  | none, _ => .error .stopped s
  | some true, some e => .ok () ⟨s.outcomes.tailExecs, closed e⟩
  | some _, _ => .error .threw ⟨s.outcomes.tailExecs, s.connection⟩

/-- A statement that changes the contents; the result says whether it succeeded. -/
def step (f : D → D) : Session D K Bool := fun s =>
  match s.outcomes.statement 0 with
  | none => .error .stopped s
  | some true => .ok true ⟨s.outcomes.tailSteps, s.connection.update f⟩
  | some false => .ok false ⟨s.outcomes.tailSteps, s.connection⟩

/-- A loop of statements; the outcome says which of them succeed. -/
def stepEach (f : (K → Bool) → D → D) : Session D K Unit := fun s =>
  match s.outcomes.rows 0 with
  | none => .error .stopped s
  | some kept => .ok () ⟨s.outcomes.tailLoops, s.connection.update (f kept)⟩

/-- A `SELECT` over the contents; `none` when it fails. -/
def query : Session D K (Option D) := fun s =>
  match s.outcomes.statement 0 with
  | none => .error .stopped s
  | some true => .ok (some s.connection.contents) ⟨s.outcomes.tailSteps, s.connection⟩
  | some false => .ok none ⟨s.outcomes.tailSteps, s.connection⟩

/-- `try p catch`: whether `p` ended without an exception. -/
def attempt (p : Session D K Unit) : Session D K Bool := fun s =>
  match p s with
  | .ok _ s => .ok true s
  | .error .threw s => .ok false s
  | .error .stopped s => .error .stopped s

def transaction (p : Session D K α) : Session D K α := do
  begin
  let a ← p
  commit
  return a

/-- One session after the other. -/
def inTurn : List (Session D K Unit) → Session D K Unit
  | [] => pure ()
  | p :: ps => do
    p
    inTurn ps

@[simp] theorem run_begin_flawless :
    (begin : Session D K Unit).run (.flawless (closed d)) = .ok () (.flawless (opened d d)) := rfl

@[simp] theorem run_commit_flawless :
    (commit : Session D K Unit).run (.flawless (opened d e)) = .ok () (.flawless (closed e)) := rfl

@[simp] theorem run_step_flawless :
    (step f : Session D K Bool).run (.flawless (opened d e)) =
      .ok true (.flawless (opened d (f e))) := rfl

@[simp] theorem run_stepEach_flawless {f : (K → Bool) → D → D} :
    (stepEach f).run (.flawless (opened d e)) =
      .ok () (.flawless (opened d (f (fun _ => true) e))) := rfl

@[simp] theorem run_query_flawless :
    (query : Session D K (Option D)).run (.flawless (opened d e)) =
      .ok (some e) (.flawless (opened d e)) := rfl

/-! ## Statements inside a transaction -/

/-- From `s` to `s'` statements have run in an open transaction. -/
structure Inside (s s' : Client D K) : Prop where
  execs : s'.outcomes.execs = s.outcomes.execs
  goesOn : s'.outcomes.goesOn = s.outcomes.goesOn
  durable : s'.connection.durable = s.connection.durable
  working : s'.connection.working.isSome

theorem Inside.trans {s'' : Client D K} (h : Inside s s') (h' : Inside s' s'') : Inside s s'' :=
  ⟨h'.execs.trans h.execs, h'.goesOn.trans h.goesOn, h'.durable.trans h.durable, h'.working⟩

/-- Sessions of statements only, which do not throw. -/
def Quiet (p : Session D K α) : Prop :=
  ∀ s, s.connection.working.isSome →
    match p.run s with
    | .ok _ s' => Inside s s'
    | .error h s' => h = .stopped ∧ Inside s s'

theorem Quiet.pure (a : α) : Quiet (Pure.pure a : Session D K α) :=
  fun _ hs => ⟨rfl, rfl, rfl, hs⟩

theorem Quiet.bind {p : Session D K α} {q : α → Session D K β} (hp : Quiet p)
    (hq : ∀ a, Quiet (q a)) : Quiet (p >>= q) := by
  intro s hs
  have hps := hp s hs
  rw [EStateM.run_bind]
  cases hr : p.run s with
  | error h s' =>
    rw [hr] at hps
    exact hps
  | ok a s' =>
    rw [hr] at hps
    have hqs := hq a s' hps.working
    cases hr' : (q a).run s' with
    | error h s'' =>
      rw [hr'] at hqs
      simpa only [hr'] using ⟨hqs.1, hps.trans hqs.2⟩
    | ok b s'' =>
      rw [hr'] at hqs
      simpa only [hr'] using hps.trans hqs

/-- A statement takes an outcome of its own kind and acts on the working copy at most. -/
theorem Inside.of_update {f : D → D} (hs : s.connection.working.isSome)
    (he : o.execs = s.outcomes.execs) (hg : o.goesOn = s.outcomes.goesOn) :
    Inside s ⟨o, s.connection.update f⟩ := by
  obtain ⟨e, hw⟩ := Option.isSome_iff_exists.mp hs
  constructor
  · exact he
  · exact hg
  · simp [Connection.update, hw, opened]
  · simp [Connection.update, hw, opened]

theorem quiet_step : Quiet (step f : Session D K Bool) := by
  intro s hs
  cases ho : s.outcomes.statement 0 with
  | none => simpa [EStateM.run, step, ho] using ⟨rfl, rfl, rfl, hs⟩
  | some ok =>
    cases ok with
    | false => simpa [EStateM.run, step, ho] using ⟨rfl, rfl, rfl, hs⟩
    | true =>
      have hin := Inside.of_update (o := s.outcomes.tailSteps) (f := f) hs rfl rfl
      simpa [EStateM.run, step, ho] using hin

theorem quiet_stepEach {f : (K → Bool) → D → D} : Quiet (stepEach f) := by
  intro s hs
  cases ho : s.outcomes.rows 0 with
  | none => simpa [EStateM.run, stepEach, ho] using ⟨rfl, rfl, rfl, hs⟩
  | some kept =>
    have hin := Inside.of_update (o := s.outcomes.tailLoops) (f := f kept) hs rfl rfl
    simpa [EStateM.run, stepEach, ho] using hin

theorem quiet_query : Quiet (query : Session D K (Option D)) := by
  intro s hs
  cases ho : s.outcomes.statement 0 with
  | none => simpa [EStateM.run, query, ho] using ⟨rfl, rfl, rfl, hs⟩
  | some ok => cases ok <;> simpa [EStateM.run, query, ho] using ⟨rfl, rfl, rfl, hs⟩

/-! ## Transactions -/

/-- How a transaction may end on a connection that is outside any. -/
inductive Transacted (p : Session D K α) (s : Client D K) :
    EStateM.Result Halt (Client D K) α → Prop

  | stopped {s' : Client D K} : s'.connection.durable = s.connection.durable →
      Transacted p s (.error .stopped s')

  | refused : s.outcomes.command 0 = some false →
      Transacted p s (.error .threw ⟨s.outcomes.tailExecs, s.connection⟩)

  | broken {a : α} {s' : Client D K} :
      s.outcomes.command 0 = some true → p.run s.begun = .ok a s' → Inside s.begun s' →
      s'.outcomes.command 0 = some false →
      Transacted p s (.error .threw ⟨s'.outcomes.tailExecs, s'.connection⟩)

  | committed {a : α} {s' : Client D K} :
      s.outcomes.command 0 = some true → p.run s.begun = .ok a s' → Inside s.begun s' →
      s'.outcomes.command 0 = some true →
      Transacted p s (.ok a s'.committed)

theorem transacted {p : Session D K α} (hp : Quiet p) (hs : s.connection.working = none) :
    Transacted p s ((transaction p).run s) := by
  simp only [transaction, EStateM.run_bind, EStateM.run_pure]
  cases ho : s.outcomes.command 0 with
  | none => simpa [EStateM.run, begin, ho] using Transacted.stopped rfl
  | some ok =>
    cases ok with
    | false => simpa [EStateM.run, begin, ho] using Transacted.refused ho
    | true =>
      have hb : begin.run s = .ok () s.begun := by
        simp [EStateM.run, begin, Client.begun, ho, hs]
      have hq := hp s.begun rfl
      rw [hb]
      cases hr : p.run s.begun with
      | error h s' =>
        rw [hr] at hq
        obtain ⟨rfl, hin⟩ := hq
        have hd : s'.connection.durable = s.connection.durable := hin.durable
        simpa only [hr] using Transacted.stopped hd
      | ok a s' =>
        rw [hr] at hq
        obtain ⟨e, hw⟩ := Option.isSome_iff_exists.mp hq.working
        have hd : s'.connection.durable = s.connection.durable := hq.durable
        simp only [hr]
        cases ho' : s'.outcomes.command 0 with
        | none => simpa [EStateM.run, commit, ho'] using Transacted.stopped hd
        | some ok =>
          cases ok with
          | false => simpa [EStateM.run, commit, ho', hw] using Transacted.broken ho hr hq ho'
          | true =>
            have hc : s'.committed = ⟨s'.outcomes.tailExecs, closed e⟩ := by
              simp [Client.committed, contents, hw]
            simpa [EStateM.run, commit, ho', hw, hc] using Transacted.committed ho hr hq ho'

/-- A transaction that does not commit stores nothing. -/
theorem durable_of_error {p : Session D K α} {h : Halt} (hp : Quiet p)
    (hs : s.connection.working = none) (hr : (transaction p).run s = .error h s') :
    s'.connection.durable = s.connection.durable := by
  have ht := transacted hp hs
  rw [hr] at ht
  cases ht with
  | stopped hd => exact hd
  | refused => rfl
  | broken _ _ hin => exact hin.durable

section Ended

variable {p : Session D K α} {a : α} {ok : Bool} {u : Unit}

theorem run_bind_ok {q : α → Session D K β} {b : β} :
    (p >>= q).run s = .ok b s' ↔ ∃ a s₁, p.run s = .ok a s₁ ∧ (q a).run s₁ = .ok b s' := by
  rw [EStateM.run_bind]
  cases p.run s <;> simp

theorem run_pure_ok {b : α} : (pure b : Session D K α).run s = .ok a s' ↔ b = a ∧ s = s' := by
  simp

theorem run_step_ok : (step f : Session D K Bool).run ⟨o, opened d e⟩ = .ok ok s' ↔
    (o.statement 0).isSome ∧ o.passes 0 = ok ∧
      ⟨o.tailSteps, opened d (bif o.passes 0 then f e else e)⟩ = s' := by
  simp only [EStateM.run, step]
  cases ho : o.statement 0 with
  | none => simp
  | some b =>
    obtain ⟨-, hp⟩ := Outcomes.statement_eq_some.mp ho
    cases b <;> simp [hp]

theorem run_stepEach_ok {f : (K → Bool) → D → D} : (stepEach f).run ⟨o, opened d e⟩ = .ok u s' ↔
    ∃ kept, o.rows 0 = some kept ∧ ⟨o.tailLoops, opened d (f kept e)⟩ = s' := by
  simp only [EStateM.run, stepEach]
  cases o.rows 0 <;> simp

theorem run_query_ok {r : Option D} :
    (query : Session D K (Option D)).run ⟨o, opened d e⟩ = .ok r s' ↔
      (o.statement 0).isSome ∧ (bif o.passes 0 then some e else none) = r ∧
        ⟨o.tailSteps, opened d e⟩ = s' := by
  simp only [EStateM.run, query]
  cases ho : o.statement 0 with
  | none => simp
  | some b =>
    obtain ⟨-, hp⟩ := Outcomes.statement_eq_some.mp ho
    cases b <;> simp [hp]

theorem run_begin_ok : (begin : Session D K Unit).run ⟨o, closed d⟩ = .ok u s' ↔
    o.command 0 = some true ∧ ⟨o.tailExecs, opened d d⟩ = s' := by
  simp only [EStateM.run, begin, closed]
  cases o.command 0 with
  | none => simp
  | some b => cases b <;> simp

theorem run_commit_ok (hw : s.connection.working.isSome) :
    (commit : Session D K Unit).run s = .ok u s' ↔
      s.outcomes.command 0 = some true ∧ s.committed = s' := by
  obtain ⟨e, hw⟩ := Option.isSome_iff_exists.mp hw
  simp only [EStateM.run, commit, Client.committed, contents, hw]
  cases s.outcomes.command 0 with
  | none => simp
  | some b => cases b <;> simp

/-- A transaction commits when both commands succeed and the process does not stop between. -/
theorem run_transaction_ok (hp : Quiet p) : (transaction p).run ⟨o, closed d⟩ = .ok a s' ↔
    o.command 0 = some true ∧ ∃ s₁, p.run ⟨o.tailExecs, opened d d⟩ = .ok a s₁ ∧
      s₁.outcomes.command 0 = some true ∧ s₁.committed = s' := by
  simp only [transaction, run_bind_ok, run_begin_ok, run_pure_ok]
  constructor
  · rintro ⟨u, s₀, ⟨ho, rfl⟩, b, s₁, hp₁, v, s₂, hc, rfl, rfl⟩
    have hin := hp ⟨o.tailExecs, opened d d⟩ rfl
    rw [hp₁] at hin
    rw [run_commit_ok hin.working] at hc
    exact ⟨ho, s₁, hp₁, hc⟩
  · rintro ⟨ho, s₁, hp₁, hc⟩
    have hin := hp ⟨o.tailExecs, opened d d⟩ rfl
    rw [hp₁] at hin
    exact ⟨(), _, ⟨ho, rfl⟩, a, s₁, hp₁, (), s', (run_commit_ok hin.working).mpr hc, rfl, rfl⟩

end Ended

/-! ## Several transactions -/

section InTurn

variable {p : Session D K Unit} {ps : List (Session D K Unit)} {u : Unit} {h : Halt}

theorem run_inTurn_ok : (inTurn (p :: ps)).run s = .ok u s' ↔
    ∃ s₁, p.run s = .ok () s₁ ∧ (inTurn ps).run s₁ = .ok u s' := by
  rw [inTurn, run_bind_ok]
  exact ⟨fun ⟨_, h⟩ => h, fun h => ⟨(), h⟩⟩

theorem run_inTurn_nil_ok : (inTurn []).run s = .ok u s' ↔ s = s' := by
  simp [inTurn]

theorem run_inTurn_error : (inTurn (p :: ps)).run s = .error h s' ↔
    p.run s = .error h s' ∨ ∃ s₁, p.run s = .ok () s₁ ∧ (inTurn ps).run s₁ = .error h s' := by
  rw [inTurn, EStateM.run_bind]
  cases p.run s <;> simp

theorem run_inTurn_nil_error : (inTurn []).run s ≠ .error h s' := by
  simp [inTurn]

end InTurn

/-- The first command that fails is the `COMMIT` of one of the first `n` transactions, the commands
of which alternate. -/
def CommitFails (n : ℕ) (o : Outcomes K) : Prop :=
  ∃ i ∈ o.execs.idxOf? false, i < 2 * n ∧ i % 2 = 1

instance (n : ℕ) (o : Outcomes K) : Decidable (CommitFails n o) :=
  inferInstanceAs (Decidable (∃ i ∈ o.execs.idxOf? false, i < 2 * n ∧ i % 2 = 1))

theorem idxOf_of_refused (h : o.command 0 = some false) : o.execs.idxOf? false = some 0 := by
  unfold Outcomes.command at h
  cases hl : o.execs with
  | nil =>
    rw [hl] at h
    split_ifs at h <;> simp at h
  | cons a l =>
    have ha : a = false := by simpa [hl] using h
    simp [ha, List.idxOf?_cons]

theorem idxOf_of_accepted (h : o.command 0 = some true) :
    o.execs.idxOf? false = (o.tailExecs.execs.idxOf? false).map (· + 1) := by
  unfold Outcomes.command at h
  cases hl : o.execs with
  | nil => simp [hl]
  | cons a l =>
    have ha : a = true := by simpa [hl] using h
    simp [ha, hl, List.idxOf?_cons]

theorem commitFails_zero : ¬CommitFails 0 o := by
  rintro ⟨i, -, hi, -⟩
  omega

/-- A transaction that commits takes two commands. -/
theorem commitFails_succ {n : ℕ} (h : o.command 0 = some true)
    (h' : o.tailExecs.execs.idxOf? false = (o'.execs.idxOf? false).map (· + 1)) :
    CommitFails (n + 1) o ↔ CommitFails n o' := by
  unfold CommitFails
  rw [idxOf_of_accepted h, h']
  cases o'.execs.idxOf? false with
  | none => simp
  | some i =>
    simp only [Option.map_some, Option.mem_some_iff, exists_eq_left']
    omega

/-- A session that is one transaction of statements. -/
def IsTransaction (p : Session D K α) : Prop := ∃ q : Session D K α, Quiet q ∧ p = transaction q

theorem attempt_ok {p : Session D K Unit} {ok : Bool} (h : (attempt p).run s = .ok ok s') :
    (ok = true ∧ p.run s = .ok () s') ∨ (ok = false ∧ p.run s = .error .threw s') := by
  simp only [EStateM.run, attempt] at h
  cases hp : p s with
  | ok a s₁ =>
    rw [hp] at h
    cases h
    exact .inl ⟨rfl, hp⟩
  | error e s₁ =>
    rw [hp] at h
    cases e with
    | stopped => cases h
    | threw =>
      cases h
      exact .inr ⟨rfl, hp⟩

/-- When transactions in turn have ended, the connection is outside any of them exactly if no
`COMMIT` is the first command that failed. -/
theorem inTurn_closed_iff {ps : List (Session D K Unit)} (hq : ∀ p ∈ ps, IsTransaction p)
    (hs : s.connection.working = none) :
    match (inTurn ps).run s with
    | .ok _ s' => s'.connection.working = none ∧ ¬CommitFails ps.length s.outcomes
    | .error .threw s' => s'.connection.working = none ↔ ¬CommitFails ps.length s.outcomes
    | .error .stopped _ => True := by
  induction ps generalizing s with
  | nil => exact ⟨hs, commitFails_zero⟩
  | cons p ps ih =>
    obtain ⟨q, hquiet, rfl⟩ := hq p List.mem_cons_self
    have ht := transacted hquiet hs
    rw [inTurn, EStateM.run_bind]
    generalize (transaction q).run s = r at ht
    cases ht with
    | stopped => trivial
    | refused ho =>
      simp only [hs, true_iff]
      rintro ⟨i, hi, -, hodd⟩
      rw [idxOf_of_refused ho] at hi
      cases hi
      omega
    | @broken _ s' ho _ hin hc =>
      obtain ⟨e, he⟩ := Option.isSome_iff_exists.mp hin.working
      have hfail : s.outcomes.execs.idxOf? false = some 1 := by
        have hexecs : s.outcomes.tailExecs.execs = s'.outcomes.execs := hin.execs.symm
        rw [idxOf_of_accepted ho, hexecs, idxOf_of_refused hc]
        rfl
      simp only [he, reduceCtorEq, false_iff, not_not]
      exact ⟨1, hfail, by rw [List.length_cons]; omega, rfl⟩
    | committed ho _ hin hc =>
      have hlater :=
        commitFails_succ (n := ps.length) ho
          ((congrArg _ hin.execs).symm.trans (idxOf_of_accepted hc))
      simp only [List.length_cons, hlater]
      exact ih (fun p hp => hq p (List.mem_cons_of_mem _ hp)) rfl

end Session

end Relational
