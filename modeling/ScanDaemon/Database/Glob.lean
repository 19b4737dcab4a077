import Mathlib.Data.List.Basic
import Mathlib.Tactic.Common

/-! # The `GLOB` operator of SQLite

`*` matches any characters, `?` any one, and `[...]` one of a set, in which
`a-z` is a range and a first `^` takes the complement. Everything else matches
itself, the letters by case. The texts are valid UTF-8 without U+FFFD, U+FFFE and
U+FFFF, which SQLite does not tell apart.
-/

namespace ScanDaemon

namespace Glob

variable {n : ℕ} {p q s : List Char} {c : Char}

/-- Read a set up to its `]`: whether `c` is in it, and the pattern after it. `prior` is the
character before, where a range may start. -/
def readSet (c : Char) (prior : Option Char) (seen : Bool) : List Char → Option (Bool × List Char)
  | [] => none
  | x :: p =>
    if x = ']' then some (seen, p) else
    match prior, p with
    | some a, d :: q =>
      if x = '-' ∧ d ≠ ']' then readSet c none (seen || (a ≤ c && c ≤ d)) q
      else readSet c (some x) (seen || c == x) (d :: q)
    | _, p => readSet c (some x) (seen || c == x) p

/-- Match `c` against the set that starts here; a `]` at its start is one of its characters. -/
def matchSet (c : Char) : List Char → Option (Bool × List Char)
  | '^' :: ']' :: p => (readSet c none (c == ']') p).map fun r => (!r.1, r.2)
  | '^' :: p => (readSet c none false p).map fun r => (!r.1, r.2)
  | ']' :: p => readSet c none (c == ']') p
  | p => readSet c none false p

/-- Whether some end of a string matches. -/
def star (m : List Char → Bool) : List Char → Bool
  | [] => m []
  | c :: s => m (c :: s) || star m s

/-- The pattern is read from the left; each step takes at least one of its characters, and `n`
bounds the steps. -/
def matches' : ℕ → List Char → List Char → Bool
  | _, [], s => s.isEmpty
  | 0, _ :: _, _ => false
  | n + 1, x :: p, s =>
    if x = '*' then star (matches' n p) s else
    match s with
    | [] => false
    | c :: s =>
      if x = '?' then matches' n p s
      else if x = '[' then
        match matchSet c p with
        | some (true, q) => matches' n q s
        | _ => false
      else c == x && matches' n p s

end Glob

/-- `s GLOB pattern` -/
def glob (pattern s : List Char) : Bool := Glob.matches' pattern.length pattern s

namespace Glob

variable {n : ℕ} {p q s : List Char} {c : Char}

/-- The characters with a meaning of their own. -/
def IsMeta (c : Char) : Prop := c = '*' ∨ c = '?' ∨ c = '['

theorem matches'_cons (hc : ¬IsMeta c) :
    matches' (n + 1) (c :: p) s = true ↔ ∃ s', s = c :: s' ∧ matches' n p s' = true := by
  obtain ⟨h₁, h₂, h₃⟩ : c ≠ '*' ∧ c ≠ '?' ∧ c ≠ '[' := by simpa [IsMeta] using hc
  cases s with
  | nil => simp [matches', h₁]
  | cons d s =>
    simp only [matches', h₁, h₂, h₃, if_false, Bool.and_eq_true, beq_iff_eq, List.cons.injEq]
    constructor
    · rintro ⟨rfl, h⟩
      exact ⟨s, ⟨rfl, rfl⟩, h⟩
    · rintro ⟨s', ⟨rfl, rfl⟩, h⟩
      exact ⟨rfl, h⟩

theorem matches'_append (hq : ∀ c ∈ q, ¬IsMeta c) :
    matches' (q.length + n) (q ++ p) s = true ↔ ∃ s', s = q ++ s' ∧ matches' n p s' = true := by
  induction q generalizing s with
  | nil => simp
  | cons c q ih =>
    rw [List.length_cons, Nat.add_right_comm, List.cons_append,
      matches'_cons (hq c List.mem_cons_self)]
    simp only [ih fun d hd => hq d (List.mem_cons_of_mem _ hd)]
    constructor
    · rintro ⟨-, rfl, s', rfl, h⟩
      exact ⟨s', rfl, h⟩
    · rintro ⟨s', rfl, h⟩
      exact ⟨q ++ s', rfl, s', rfl, h⟩

theorem star_isEmpty : star List.isEmpty s = true := by
  induction s with
  | nil => rfl
  | cons c s ih => simp [star, ih]

theorem matches'_star : matches' 1 ['*'] s = true := star_isEmpty

end Glob

/-- A pattern without special characters before its final `*` matches by prefix. -/
theorem glob_append_star {q s : List Char} (hq : ∀ c ∈ q, ¬Glob.IsMeta c) :
    glob (q ++ ['*']) s = true ↔ q <+: s := by
  rw [glob, List.length_append, List.length_singleton, Glob.matches'_append hq]
  constructor
  · rintro ⟨s', rfl, -⟩
    exact List.prefix_append q s'
  · rintro ⟨s', rfl⟩
    exact ⟨s', rfl, Glob.matches'_star⟩

namespace Glob

/-! ## Patterns that do not match by prefix

A set is written with more characters than the one that it matches, and `*`
matches nothing as well. So what such a pattern matches is matched by a string
that is too short to start with the pattern.
-/

variable {n : ℕ} {p q s t v : List Char} {c : Char} {a : Option Char} {seen b : Bool}

theorem star_eq_true_iff {m : List Char → Bool} : star m s = true ↔ ∃ t, t <:+ s ∧ m t = true := by
  induction s with
  | nil => simp [star]
  | cons c s ih =>
    rw [star, Bool.or_eq_true, ih]
    constructor
    · rintro (h | ⟨t, ht, h⟩)
      · exact ⟨c :: s, List.suffix_rfl, h⟩
      · exact ⟨t, ht.trans (List.suffix_cons c s), h⟩
    · rintro ⟨t, ht, h⟩
      rcases List.suffix_cons_iff.mp ht with rfl | ht
      · exact .inl h
      · exact .inr ⟨t, ht, h⟩

/-- What follows a set is behind its `]`. -/
theorem readSet_suffix (h : readSet c a seen p = some (b, q)) : ']' :: q <:+ p := by
  fun_induction readSet c a seen p with
  | case1 => cases h
  | case2 prior seen p =>
    cases h
    exact List.suffix_rfl
  | case3 seen x hx a d p hd ih =>
    exact (ih h).trans ((List.suffix_cons d p).trans (List.suffix_cons x _))
  | case4 seen x hx a d p hd ih => exact (ih h).trans (List.suffix_cons x _)
  | case5 prior seen x p hx _ ih => exact (ih h).trans (List.suffix_cons x _)

theorem matchSet_suffix (h : matchSet c p = some (b, q)) : ']' :: q <:+ p := by
  unfold matchSet at h
  split at h
  · obtain ⟨⟨r, q⟩, hr, he⟩ := Option.map_eq_some_iff.mp h
    cases he
    exact (readSet_suffix hr).trans ((List.suffix_cons _ _).trans (List.suffix_cons _ _))
  · obtain ⟨⟨r, q⟩, hr, he⟩ := Option.map_eq_some_iff.mp h
    cases he
    exact (readSet_suffix hr).trans (List.suffix_cons _ _)
  · exact (readSet_suffix h).trans (List.suffix_cons _ _)
  · exact readSet_suffix h

/-- A set ends before the final `*`. -/
theorem matchSet_star (h : matchSet c (v ++ ['*']) = some (b, q)) :
    ∃ w, q = w ++ ['*'] ∧ w.length < v.length := by
  obtain ⟨u, hu⟩ := matchSet_suffix h
  rcases List.eq_nil_or_concat q with rfl | ⟨w, x, rfl⟩
  · have he := (List.append_inj' hu rfl).2
    simp at he
  · rw [List.concat_eq_append, ← List.cons_append, ← List.append_assoc] at hu
    obtain ⟨hv, hx⟩ := List.append_inj' hu rfl
    refine ⟨w, by rw [List.concat_eq_append, hx], ?_⟩
    rw [← hv, List.length_append, List.length_cons]
    omega

/-- The cases of a match whose pattern goes on. -/
theorem matches'_cons_iff {x : Char} : matches' (n + 1) (x :: p) s = true ↔
    (x = '*' ∧ ∃ t, t <:+ s ∧ matches' n p t = true) ∨
      ∃ c t, s = c :: t ∧ ((x = '?' ∧ matches' n p t = true) ∨
        (x = '[' ∧ ∃ q, matchSet c p = some (true, q) ∧ matches' n q t = true) ∨
        (¬IsMeta x ∧ c = x ∧ matches' n p t = true)) := by
  rw [matches'.eq_def]
  dsimp only
  by_cases hstar : x = '*'
  · subst hstar
    rw [if_pos rfl, star_eq_true_iff]
    simp [IsMeta]
  · rw [if_neg hstar]
    cases s with
    | nil => simp [hstar]
    | cons c t =>
      by_cases hany : x = '?'
      · subst hany
        simp [IsMeta]
      by_cases hset : x = '['
      · subst hset
        cases hm : matchSet c p with
        | none => simp [IsMeta, hm]
        | some r =>
          obtain ⟨_ | _, q⟩ := r <;> simp [IsMeta, hm]
      · simp [hstar, hany, hset, IsMeta]

/-- What matches at all, matches with no more characters than are written before the final `*`. -/
theorem matches'_short (h : matches' n (v ++ ['*']) s = true) :
    ∃ t, t.length ≤ v.length ∧ matches' n (v ++ ['*']) t = true := by
  induction n generalizing v s with
  | zero => cases v <;> simp [matches'] at h
  | succ n ih =>
    cases v with
    | nil =>
      refine ⟨[], Nat.le_refl _, ?_⟩
      cases n <;> rfl
    | cons x v =>
      rw [List.cons_append, matches'_cons_iff] at h
      simp only [List.cons_append, matches'_cons_iff]
      rcases h with ⟨hx, t, -, h⟩ | ⟨c, t, -, ⟨hx, h⟩ | ⟨hx, q, hq, h⟩ | ⟨hx, hc, h⟩⟩
      · obtain ⟨t', hl, h'⟩ := ih h
        exact ⟨t', Nat.le_succ_of_le hl, .inl ⟨hx, t', List.suffix_rfl, h'⟩⟩
      · obtain ⟨t', hl, h'⟩ := ih h
        exact ⟨c :: t', Nat.succ_le_succ hl, .inr ⟨c, t', rfl, .inl ⟨hx, h'⟩⟩⟩
      · obtain ⟨w, rfl, hw⟩ := matchSet_star hq
        obtain ⟨t', hl, h'⟩ := ih h
        exact ⟨c :: t', Nat.succ_le_succ (Nat.le_trans hl (Nat.le_of_lt hw)),
          .inr ⟨c, t', rfl, .inr (.inl ⟨hx, _, hq, h'⟩)⟩⟩
      · obtain ⟨t', hl, h'⟩ := ih h
        exact ⟨c :: t', Nat.succ_le_succ hl, .inr ⟨c, t', rfl, .inr (.inr ⟨hx, hc, h'⟩)⟩⟩

/-- A pattern with a special character before its final `*` matches, if anything, a string that
does not start with the pattern. -/
theorem matches'_astray (hv : ∃ x ∈ v, IsMeta x) (h : matches' n (v ++ ['*']) s = true) :
    ∃ t, ¬v <+: t ∧ matches' n (v ++ ['*']) t = true := by
  induction n generalizing v s with
  | zero => cases v <;> simp [matches'] at h
  | succ n ih =>
    cases v with
    | nil => simp at hv
    | cons x v =>
      rw [List.cons_append, matches'_cons_iff] at h
      simp only [List.cons_append, matches'_cons_iff]
      rcases h with ⟨hx, t, -, h⟩ | ⟨c, t, -, ⟨hx, h⟩ | ⟨hx, q, hq, h⟩ | ⟨hx, hc, h⟩⟩
      · obtain ⟨t', hl, h'⟩ := matches'_short h
        refine ⟨t', fun hp => ?_, .inl ⟨hx, t', List.suffix_rfl, h'⟩⟩
        have hlen := hp.length_le
        rw [List.length_cons] at hlen
        omega
      · refine ⟨'a' :: t, ?_, .inr ⟨'a', t, rfl, .inl ⟨hx, h⟩⟩⟩
        simp [hx]
      · obtain ⟨w, rfl, hw⟩ := matchSet_star hq
        obtain ⟨t', hl, h'⟩ := matches'_short h
        refine ⟨c :: t', fun hp => ?_, .inr ⟨c, t', rfl, .inr (.inl ⟨hx, _, hq, h'⟩)⟩⟩
        have hlen := hp.length_le
        rw [List.length_cons, List.length_cons] at hlen
        omega
      · have hrest : ∃ y ∈ v, IsMeta y := by
          obtain ⟨y, hy, hm⟩ := hv
          rcases List.mem_cons.mp hy with rfl | hy
          · exact absurd hm hx
          · exact ⟨y, hy, hm⟩
        obtain ⟨t', hp, h'⟩ := ih hrest h
        refine ⟨c :: t', ?_, .inr ⟨c, t', rfl, .inr (.inr ⟨hx, hc, h'⟩)⟩⟩
        simp [hc, hp]

end Glob

/-- A pattern that ends with `*` matches by prefix exactly if there is no special character before
the `*`. -/
theorem glob_prefix_iff {v : List Char} :
    (∀ s, glob (v ++ ['*']) s = true ↔ v <+: s) ↔ ∀ c ∈ v, ¬Glob.IsMeta c := by
  constructor
  · intro h
    by_contra hmeta
    push Not at hmeta
    have hself := (h v).mpr List.prefix_rfl
    obtain ⟨t, hp, ht⟩ := Glob.matches'_astray hmeta hself
    exact hp ((h t).mp ht)
  · intro h s
    exact glob_append_star h

example : glob ['[', 'b', '-', 'd', ']', '/', '*'] ['c', '/', 'x'] = true := by decide
example : glob ['[', 'b', '-', 'd', ']', '/', '*'] ['[', 'b', '-', 'd', ']', '/', 'x'] = false := by
  decide

end ScanDaemon
