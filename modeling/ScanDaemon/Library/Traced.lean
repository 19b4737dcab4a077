import ScanDaemon.Library.Session

/-! # Sessions that are traced

A traced session keeps a record beside its client. Forgetting the record gives
back the session, so that what the record says about a traced session is said
about the session itself.
-/

namespace Relational

abbrev TracedSession (D K T : Type) := EStateM Halt (Client D K × T)

namespace TracedSession

open Connection

variable {D K T α β : Type} {s s' : Client D K} {r r' : T}

/-- A session that leaves the record as it is. -/
def lift (p : Session D K α) : TracedSession D K T α := fun s =>
  match p s.1 with
  | .ok a s' => .ok a (s', s.2)
  | .error h s' => .error h (s', s.2)

/-- A change of the record. -/
def note (f : T → T) : TracedSession D K T Unit := fun s => .ok () (s.1, f s.2)

/-- `try p catch` -/
def attempt (p : TracedSession D K T Unit) : TracedSession D K T Bool := fun s =>
  match p s with
  | .ok _ s => .ok true s
  | .error .threw s => .ok false s
  | .error .stopped s => .error .stopped s

def inTurn : List (TracedSession D K T Unit) → TracedSession D K T Unit
  | [] => pure ()
  | p :: ps => do
    p
    inTurn ps

/-- A transaction of statements with notes; its two commands are noted when they have succeeded. -/
def transaction (begun committed : T → T) (q : TracedSession D K T α) :
    TracedSession D K T α := do
  lift Session.begin
  note begun
  let a ← q
  lift Session.commit
  note committed
  return a

theorem run_lift {p : Session D K α} :
    (lift p : TracedSession D K T α).run (s, r) = match p.run s with
      | .ok a s' => .ok a (s', r)
      | .error h s' => .error h (s', r) := rfl

theorem run_lift_ok {p : Session D K α} {a : α} (h : p.run s = .ok a s') :
    (lift p : TracedSession D K T α).run (s, r) = .ok a (s', r) := by
  rw [EStateM.run] at h
  simp only [EStateM.run, lift, h]

@[simp] theorem run_note {f : T → T} :
    (note f : TracedSession D K T Unit).run (s, r) = .ok () (s, f r) := rfl

/-! ## Forgetting the record -/

/-- The end of a traced session without the record. -/
def forget : EStateM.Result Halt (Client D K × T) α → EStateM.Result Halt (Client D K) α
  | .ok a s => .ok a s.1
  | .error h s => .error h s.1

/-- The traced session does what the session does. -/
def Traces (q : TracedSession D K T α) (p : Session D K α) : Prop :=
  ∀ s r, forget (q.run (s, r)) = p.run s

theorem Traces.lift (p : Session D K α) : Traces (lift p : TracedSession D K T α) p := by
  intro s r
  simp only [EStateM.run, TracedSession.lift]
  cases p s <;> rfl

theorem Traces.pure (a : α) :
    Traces (Pure.pure a : TracedSession D K T α) (Pure.pure a : Session D K α) :=
  fun _ _ => rfl

theorem Traces.throw (h : Halt) :
    Traces (throw h : TracedSession D K T α) (throw h : Session D K α) :=
  fun _ _ => rfl

theorem Traces.bind {q : TracedSession D K T α} {p : Session D K α} {g : α → TracedSession D K T β}
    {f : α → Session D K β} (h : Traces q p) (hg : ∀ a, Traces (g a) (f a)) :
    Traces (q >>= g) (p >>= f) := by
  intro s r
  rw [EStateM.run_bind, EStateM.run_bind, ← h s r]
  cases q.run (s, r) with
  | ok a s' => exact hg a s'.1 s'.2
  | error e s' => rfl

theorem Traces.note_bind {q : TracedSession D K T α} {p : Session D K α} (f : T → T)
    (h : Traces q p) : Traces (note f >>= fun _ => q) p := by
  intro s r
  rw [EStateM.run_bind, run_note]
  exact h s (f r)

theorem Traces.noted (f : T → T) :
    Traces (note f : TracedSession D K T Unit) (Pure.pure () : Session D K Unit) :=
  fun _ _ => rfl

theorem Traces.bind_note {q : TracedSession D K T Unit} {p : Session D K Unit} (f : T → T)
    (h : Traces q p) : Traces (do q; note f) p := by
  intro s r
  rw [EStateM.run_bind, ← h s r]
  cases q.run (s, r) with
  | ok a s' => rfl
  | error e s' => rfl

theorem Traces.attempt {q : TracedSession D K T Unit} {p : Session D K Unit} (h : Traces q p) :
    Traces (attempt q) (Session.attempt p) := by
  intro s r
  have hs := h s r
  rw [EStateM.run, EStateM.run] at hs
  simp only [EStateM.run, TracedSession.attempt, Session.attempt, ← hs]
  cases q (s, r) with
  | ok a s' => rfl
  | error e s' => cases e <;> rfl

theorem Traces.transaction {begun committed : T → T} {q : TracedSession D K T α}
    {p : Session D K α} (h : Traces q p) :
    Traces (transaction begun committed q) (Session.transaction p) := by
  apply (Traces.lift _).bind
  intro _
  apply Traces.note_bind
  apply h.bind
  intro a
  apply (Traces.lift _).bind
  intro _
  exact Traces.note_bind _ (Traces.pure a)

theorem Traces.inTurn {qs : List (TracedSession D K T Unit)} {ps : List (Session D K Unit)}
    (h : List.Forall₂ Traces qs ps) : Traces (inTurn qs) (Session.inTurn ps) := by
  induction h with
  | nil => exact Traces.pure ()
  | cons hq _ ih => exact hq.bind fun _ => ih

/-! ## Sessions in which no call fails -/

section Flawless

variable {q : TracedSession D K T α} {d e : D} {a : α}

theorem run_transaction_flawless {begun committed : T → T}
    (h : q.run (.flawless (opened d d), begun r) = .ok a (.flawless (opened d e), r')) :
    (transaction begun committed q).run (.flawless (closed d), r) =
      .ok a (.flawless (closed e), committed r') := by
  have hbegin : (lift Session.begin : TracedSession D K T Unit).run (.flawless (closed d), r) =
      .ok () (.flawless (opened d d), r) := rfl
  have hcommit : (lift Session.commit : TracedSession D K T Unit).run (.flawless (opened d e), r') =
      .ok () (.flawless (closed e), r') := rfl
  simp only [transaction, EStateM.run_bind, hbegin, run_note, h, hcommit, EStateM.run_pure]

theorem run_inTurn_cons {q : TracedSession D K T Unit} {qs : List (TracedSession D K T Unit)}
    (h : q.run (s, r) = .ok () (s', r')) :
    (inTurn (q :: qs)).run (s, r) = (inTurn qs).run (s', r') := by
  rw [inTurn, EStateM.run_bind, h]

theorem run_attempt {q : TracedSession D K T Unit} (h : q.run (s, r) = .ok () (s', r')) :
    (attempt q).run (s, r) = .ok true (s', r') := by
  rw [EStateM.run] at h
  simp only [EStateM.run, attempt, h]

end Flawless

/-! ## What sessions keep, however they end -/

/-- The client and the record at the end of a session. -/
def ended : EStateM.Result Halt (Client D K × T) α → Client D K × T
  | .ok _ s | .error _ s => s

/-- The session keeps a property of the connection and the record, whatever fails. -/
def Keeps (P : Connection D → T → Prop) (q : TracedSession D K T α) : Prop :=
  ∀ s r, P s.connection r →
    P (ended (q.run (s, r))).1.connection (ended (q.run (s, r))).2

section Keeps

variable {P : Connection D → T → Prop} {q : TracedSession D K T α}

theorem Keeps.pure (a : α) : Keeps P (Pure.pure a : TracedSession D K T α) := fun _ _ h => h

theorem Keeps.throw (e : Halt) : Keeps P (throw e : TracedSession D K T α) := fun _ _ h => h

theorem Keeps.bind {g : α → TracedSession D K T β} (h : Keeps P q) (hg : ∀ a, Keeps P (g a)) :
    Keeps P (q >>= g) := by
  intro s r hP
  have hq := h s r hP
  rw [EStateM.run_bind]
  cases hr : q.run (s, r) with
  | ok a s' =>
    rw [hr] at hq
    exact hg a s'.1 s'.2 hq
  | error e s' =>
    rw [hr] at hq
    exact hq

theorem Keeps.note {f : T → T} (h : ∀ c r, P c r → P c (f r)) :
    Keeps P (note f : TracedSession D K T Unit) :=
  fun s r hP => h s.connection r hP

theorem Keeps.attempt {q : TracedSession D K T Unit} (h : Keeps P q) : Keeps P (attempt q) := by
  intro s r hP
  have hq := h s r hP
  simp only [EStateM.run, TracedSession.attempt] at hq ⊢
  cases hr : q (s, r) with
  | ok a s' =>
    rw [hr] at hq
    exact hq
  | error e s' =>
    rw [hr] at hq
    cases e <;> exact hq

theorem Keeps.inTurn {qs : List (TracedSession D K T Unit)} (h : ∀ q ∈ qs, Keeps P q) :
    Keeps P (inTurn qs) := by
  induction qs with
  | nil => exact Keeps.pure ()
  | cons q qs ih =>
    apply (h q List.mem_cons_self).bind
    intro _
    exact ih fun q hq => h q (List.mem_cons_of_mem _ hq)

/-- A statement that keeps the property on the contents. -/
theorem Keeps.step {f : D → D} (h : ∀ c r, P c r → P (c.update f) r) :
    Keeps P (lift (Session.step f : Session D K Bool)) := by
  intro s r hP
  simp only [EStateM.run, lift, Session.step]
  cases s.outcomes.statement 0 with
  | none => exact hP
  | some ok =>
    cases ok with
    | true => exact h _ _ hP
    | false => exact hP

theorem Keeps.stepEach {f : (K → Bool) → D → D} (h : ∀ kept c r, P c r → P (c.update (f kept)) r) :
    Keeps P (lift (Session.stepEach f)) := by
  intro s r hP
  simp only [EStateM.run, lift, Session.stepEach]
  cases s.outcomes.rows 0 with
  | none => exact hP
  | some kept => exact h kept _ _ hP

theorem Keeps.query : Keeps P (lift (Session.query : Session D K (Option D))) := by
  intro s r hP
  simp only [EStateM.run, lift, Session.query]
  cases s.outcomes.statement 0 with
  | none => exact hP
  | some ok => cases ok <;> exact hP

theorem Keeps.lift_bind {p : Session D K α} {g : α → Session D K β} (hp : Keeps P (lift p))
    (hg : ∀ a, Keeps P (lift (g a))) : Keeps P (lift (p >>= g)) := by
  intro s r hP
  have hk := hp s r hP
  rw [run_lift] at hk ⊢
  rw [EStateM.run_bind]
  cases hps : p.run s with
  | ok a s' =>
    rw [hps] at hk
    exact hg a s' r hk
  | error e s' =>
    rw [hps] at hk
    exact hk

theorem Keeps.lift_pure (a : α) : Keeps P (lift (Pure.pure a : Session D K α)) := fun _ _ h => h

/-- `BEGIN`, noted when it has succeeded. -/
theorem Keeps.begin {f : T → T} (h : ∀ d r, P (closed d) r → P (opened d d) (f r)) :
    Keeps P (do lift Session.begin; TracedSession.note f : TracedSession D K T Unit) := by
  intro s r hP
  obtain ⟨o, d, w⟩ := s
  rw [EStateM.run_bind, run_lift, EStateM.run, Session.begin]
  cases o.command 0 with
  | none => exact hP
  | some ok =>
    cases ok with
    | false => exact hP
    | true =>
      cases w with
      | none => exact h d r hP
      | some e => exact hP

/-- `COMMIT`, noted when it has succeeded. -/
theorem Keeps.commit {f : T → T} (h : ∀ d e r, P (opened d e) r → P (closed e) (f r)) :
    Keeps P (do lift Session.commit; TracedSession.note f : TracedSession D K T Unit) := by
  intro s r hP
  obtain ⟨o, d, w⟩ := s
  rw [EStateM.run_bind, run_lift, EStateM.run, Session.commit]
  cases o.command 0 with
  | none => exact hP
  | some ok =>
    cases ok with
    | false => exact hP
    | true =>
      cases w with
      | none => exact hP
      | some e => exact h d e r hP

/-- A note after which a session keeps a stronger property. -/
theorem Keeps.note_then {P' : Connection D → T → Prop} {f : T → T}
    (hf : ∀ c r, P c r → P' c (f r)) (hP : ∀ c r, P' c r → P c r) (h : Keeps P' q) :
    Keeps P (do TracedSession.note f; q) := by
  intro s r hPr
  rw [EStateM.run_bind, run_note]
  exact hP _ _ (h s (f r) (hf _ _ hPr))

/-- A statement and a note that depends on whether it has succeeded. -/
theorem Keeps.step_note {f : D → D} {g : Bool → T → T}
    (htrue : ∀ c r, P c r → P (c.update f) (g true r)) (hfalse : ∀ c r, P c r → P c (g false r)) :
    Keeps P (do
      let done ← lift (Session.step f : Session D K Bool)
      TracedSession.note (g done)) := by
  intro s r hP
  rw [EStateM.run_bind, run_lift, EStateM.run, Session.step]
  cases s.outcomes.statement 0 with
  | none => exact hP
  | some ok =>
    cases ok with
    | true => exact htrue _ _ hP
    | false => exact hfalse _ _ hP

theorem Keeps.transaction {begun committed : T → T}
    (hb : ∀ d r, P (closed d) r → P (opened d d) (begun r)) (hq : Keeps P q)
    (hc : ∀ d e r, P (opened d e) r → P (closed e) (committed r)) :
    Keeps P (transaction begun committed q) := by
  have hrest : Keeps P (do
      let a ← q
      (do lift Session.commit; TracedSession.note committed)
      Pure.pure a) :=
    hq.bind fun a => (Keeps.commit hc).bind fun _ => Keeps.pure a
  have hk := (Keeps.begin (K := K) hb).bind fun _ => hrest
  simp only [bind_assoc] at hk
  exact hk

end Keeps

end TracedSession

end Relational
