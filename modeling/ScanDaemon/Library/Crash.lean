import ScanDaemon.Library.Traced

/-! # Sessions whose process may stop

When no call fails, a session either ends or its process stops between two
calls. What it leaves behind then is a condition of its own, beside the one on
its end: the rules below carry both through a session.
-/

namespace Relational

namespace Outcomes

variable {K : Type} {o : Outcomes K}

/-- No call fails; the process may stop. -/
structure Steady (o : Outcomes K) : Prop where
  execs : ∀ ok ∈ o.execs, ok = true
  steps : ∀ ok ∈ o.steps, ok = true
  loops : ∀ kept ∈ o.loops, kept = fun _ => true

theorem Steady.tailExecs (h : o.Steady) : o.tailExecs.Steady :=
  ⟨fun ok hok => h.execs ok (List.mem_of_mem_tail hok), h.steps, h.loops⟩

theorem Steady.tailSteps (h : o.Steady) : o.tailSteps.Steady :=
  ⟨h.execs, fun ok hok => h.steps ok (List.mem_of_mem_tail hok), h.loops⟩

theorem Steady.tailLoops (h : o.Steady) : o.tailLoops.Steady :=
  ⟨h.execs, h.steps, fun kept hk => h.loops kept (List.mem_of_mem_tail hk)⟩

/-- An outcome is the one of a call that succeeds, or the process stops. -/
theorem entry_of_all {A : Type} {l : List A} {x : A} (h : ∀ a ∈ l, a = x) (b : Bool) (i : ℕ) :
    (l[i]?).or (if b then some x else none) = none ∨
      (l[i]?).or (if b then some x else none) = some x := by
  cases hi : l[i]? with
  | some a =>
    right
    rw [Option.some_or, h a (List.mem_of_getElem? hi)]
  | none => cases b <;> simp

theorem Steady.command (h : o.Steady) (i : ℕ) : o.command i = none ∨ o.command i = some true :=
  entry_of_all h.execs _ i

theorem Steady.statement (h : o.Steady) (i : ℕ) :
    o.statement i = none ∨ o.statement i = some true := entry_of_all h.steps _ i

theorem Steady.rows (h : o.Steady) (i : ℕ) :
    o.rows i = none ∨ o.rows i = some fun _ => true := entry_of_all h.loops _ i

end Outcomes

namespace TracedSession

open Connection

variable {D K T α β : Type}

theorem lift_bind (p : Session D K α) (g : α → Session D K β) :
    (lift (p >>= g) : TracedSession D K T β) = lift p >>= fun a => lift (g a) := by
  funext s
  change (lift (p >>= g)).run s = (lift p >>= fun a => lift (g a)).run s
  obtain ⟨c, r⟩ := s
  rw [EStateM.run_bind, run_lift, run_lift, EStateM.run_bind]
  cases p.run c <;> rfl

/-- When no call fails, the session ends as `Q` says, or the process stops and leaves the stored
contents and the record as `R` says. -/
def Endures (R : D → T → Prop) (Q : α → Connection D → T → Prop) (c : Connection D) (r : T)
    (q : TracedSession D K T α) : Prop :=
  ∀ o : Outcomes K, o.Steady →
    match q.run (⟨o, c⟩, r) with
    | .ok a s => s.1.outcomes.Steady ∧ Q a s.1.connection s.2
    | .error .stopped s => R s.1.connection.durable s.2
    | .error .threw _ => False

namespace Endures

variable {R R' : D → T → Prop} {Q : α → Connection D → T → Prop} {Q' : β → Connection D → T → Prop}
  {c : Connection D} {r : T} {d e : D} {q : TracedSession D K T α}

theorem pure {a : α} (h : Q a c r) : Endures R Q c r (Pure.pure a : TracedSession D K T α) :=
  fun _ ho => ⟨ho, h⟩

theorem bind {g : α → TracedSession D K T β} (h : Endures R Q c r q)
    (hg : ∀ a c' r', Q a c' r' → Endures R Q' c' r' (g a)) : Endures R Q' c r (q >>= g) := by
  intro o ho
  have hq := h o ho
  rw [EStateM.run_bind]
  cases hrun : q.run (⟨o, c⟩, r) with
  | ok a s =>
    rw [hrun] at hq
    exact hg a s.1.connection s.2 hq.2 s.1.outcomes hq.1
  | error halt s =>
    rw [hrun] at hq
    cases halt with
    | stopped => exact hq
    | threw => exact hq.elim

theorem mono {Q₁ : α → Connection D → T → Prop} (h : Endures R Q c r q)
    (hR : ∀ d r, R d r → R' d r) (hQ : ∀ a c r, Q a c r → Q₁ a c r) : Endures R' Q₁ c r q := by
  intro o ho
  have hq := h o ho
  cases hrun : q.run (⟨o, c⟩, r) with
  | ok a s =>
    rw [hrun] at hq
    exact ⟨hq.1, hQ _ _ _ hq.2⟩
  | error halt s =>
    rw [hrun] at hq
    cases halt with
    | stopped => exact hR _ _ hq
    | threw => exact hq

theorem note {f : T → T} {Q : Unit → Connection D → T → Prop} (h : Q () c (f r)) :
    Endures R Q c r (TracedSession.note f : TracedSession D K T Unit) :=
  fun _ ho => ⟨ho, h⟩

theorem begin {Q : Unit → Connection D → T → Prop} (hR : R d r) (hQ : Q () (opened d d) r) :
    Endures R Q (closed d) r (lift (Session.begin : Session D K Unit)) := by
  intro o ho
  rw [run_lift, EStateM.run, Session.begin]
  rcases ho.command 0 with hc | hc
  · rw [hc]
    exact hR
  · rw [hc]
    exact ⟨ho.tailExecs, hQ⟩

theorem commit {Q : Unit → Connection D → T → Prop} (hR : R d r) (hQ : Q () (closed e) r) :
    Endures R Q (opened d e) r (lift (Session.commit : Session D K Unit)) := by
  intro o ho
  rw [run_lift, EStateM.run, Session.commit]
  rcases ho.command 0 with hc | hc
  · rw [hc]
    exact hR
  · rw [hc]
    exact ⟨ho.tailExecs, hQ⟩

theorem step {f : D → D} {Q : Bool → Connection D → T → Prop} (hR : R d r)
    (hQ : Q true (opened d (f e)) r) :
    Endures R Q (opened d e) r (lift (Session.step f : Session D K Bool)) := by
  intro o ho
  rw [run_lift, EStateM.run, Session.step]
  rcases ho.statement 0 with hs | hs
  · rw [hs]
    exact hR
  · rw [hs]
    exact ⟨ho.tailSteps, hQ⟩

theorem stepEach {f : (K → Bool) → D → D} {Q : Unit → Connection D → T → Prop} (hR : R d r)
    (hQ : Q () (opened d (f (fun _ => true) e)) r) :
    Endures R Q (opened d e) r (lift (Session.stepEach f)) := by
  intro o ho
  rw [run_lift, EStateM.run, Session.stepEach]
  rcases ho.rows 0 with hs | hs
  · rw [hs]
    exact hR
  · rw [hs]
    exact ⟨ho.tailLoops, hQ⟩

theorem query {Q : Option D → Connection D → T → Prop} (hR : R d r)
    (hQ : Q (some e) (opened d e) r) :
    Endures R Q (opened d e) r (lift (Session.query : Session D K (Option D))) := by
  intro o ho
  rw [run_lift, EStateM.run, Session.query]
  rcases ho.statement 0 with hs | hs
  · rw [hs]
    exact hR
  · rw [hs]
    exact ⟨ho.tailSteps, hQ⟩

theorem attempt {q : TracedSession D K T Unit} {Q : Bool → Connection D → T → Prop}
    (h : Endures R (fun _ => Q true) c r q) : Endures R Q c r (TracedSession.attempt q) := by
  intro o ho
  have hq := h o ho
  simp only [EStateM.run, TracedSession.attempt] at hq ⊢
  cases hrun : q (⟨o, c⟩, r) with
  | ok a s =>
    rw [hrun] at hq
    exact hq
  | error halt s =>
    rw [hrun] at hq
    cases halt with
    | stopped => exact hq
    | threw => exact hq.elim

/-- Before its commit, a transaction leaves what was stored before it. -/
theorem transaction {begun committed : T → T} {q : TracedSession D K T α} {f : D → D}
    (hR : R d r)
    (hbody : Endures R
      (fun a c r' => c = opened d (f d) ∧ R d r' ∧ Q a (closed (f d)) (committed r'))
      (opened d d) (begun r) q) :
    Endures R Q (closed d) r (TracedSession.transaction begun committed q) := by
  have hend : ∀ a r', R d r' → Q a (closed (f d)) (committed r') →
      Endures R Q (opened d (f d)) r' (do
        lift Session.commit
        TracedSession.note committed
        return a : TracedSession D K T α) := by
    intro a r' hr' hQ
    apply bind (commit (Q := fun _ c r₁ => c = closed (f d) ∧ r₁ = r') hr' ⟨rfl, rfl⟩)
    rintro - _ _ ⟨rfl, rfl⟩
    exact bind (note hQ) fun _ _ _ h => pure h
  apply bind (begin (Q := fun _ c r' => c = opened d d ∧ r' = r) hR ⟨rfl, rfl⟩)
  rintro - _ r ⟨rfl, rfl⟩
  apply bind (Q := fun _ c r' => c = opened d d ∧ r' = begun r) (note ⟨rfl, rfl⟩)
  rintro - _ _ ⟨rfl, rfl⟩
  apply hbody.bind
  rintro a _ r' ⟨rfl, hr', hQ⟩
  exact hend a r' hr' hQ

/-- Sessions in turn, each of which stores its change as a whole or not at all. -/
theorem inTurn {qs : List (TracedSession D K T Unit)} {fs : List (D → D)}
    (h : List.Forall₂ (fun q f => ∀ d, R d r →
      Endures R (fun _ c r' => c = closed (f d) ∧ r' = r) (closed d) r q) qs fs)
    (hR : ∀ k < fs.length, R ((fs.take k).foldl (fun d f => f d) d) r) :
    Endures R (fun _ c r' => c = closed (fs.foldl (fun d f => f d) d) ∧ r' = r) (closed d) r
      (TracedSession.inTurn qs) := by
  induction h generalizing d with
  | nil => exact pure ⟨rfl, rfl⟩
  | @cons q f qs fs hq _ ih =>
    have hd : R d r := hR 0 (Nat.succ_pos _)
    apply (hq d hd).bind
    rintro - _ _ ⟨rfl, rfl⟩
    apply ih
    intro k hk
    exact hR (k + 1) (Nat.succ_lt_succ hk)

end Endures

end TracedSession

end Relational
