import Mathlib
import ScanDaemon.Database.Glob

/-! # The `LIKE` operator of SQLite

`%` matches any characters and `_` any one, and there is no escape. Everything
else matches itself, the letters of ASCII in both cases. Both texts are valid
UTF-8, of which SQLite reads one character after the other.
-/

namespace ScanDaemon

/-- The code point that SQLite reads for a character: U+FFFE and U+FFFF are taken for errors. -/
def readUtf8 (c : Char) : Char := if c = '\uFFFE' ∨ c = '\uFFFF' then '\uFFFD' else c

/-- `s LIKE pattern` -/
def like : List Char → List Char → Bool
  | [], s => s.isEmpty
  | x :: p, s =>
    if x = '%' then Glob.star (like p) s else
    match s with
    | [] => false
    | c :: s => (x == '_' || (readUtf8 x).toLower == (readUtf8 c).toLower) && like p s

namespace Like

/-- The two texts differ in the case of letters only. -/
def SameLetters (s t : List Char) : Prop := s.map Char.toLower = t.map Char.toLower

/-- The text occurs in `s`. -/
def Occurs (q s : List Char) : Prop := q.map Char.toLower <:+: s.map Char.toLower

instance (q s : List Char) : Decidable (Occurs q s) := inferInstanceAs (Decidable (_ <:+: _))

/-- The characters that are read alike, as U+FFFD. -/
def IsReplaced (c : Char) : Prop := c = '\uFFFD' ∨ c = '\uFFFE' ∨ c = '\uFFFF'

instance (c : Char) : Decidable (IsReplaced c) := inferInstanceAs (Decidable (_ ∨ _ ∨ _))

/-- A text without wildcards that the pattern matches, with `y` for what is read as U+FFFD. -/
def sample (y : Char) (q : List Char) : List Char :=
  q.filterMap fun c =>
    if c = '%' then none else if c = '_' then some 'a' else if IsReplaced c then some y else some c

variable {p q r s t a b : List Char} {c x y : Char}

theorem like_percent : like ('%' :: p) s = true ↔ ∃ t, t <:+ s ∧ like p t = true := by
  rw [like.eq_def]
  exact Glob.star_eq_true_iff

theorem like_cons (hx : x ≠ '%') :
    like (x :: p) s = true ↔
      ∃ c t, s = c :: t ∧ (x = '_' ∨ (readUtf8 x).toLower = (readUtf8 c).toLower) ∧
        like p t = true := by
  rw [like.eq_def]
  cases s with
  | nil => simp [hx]
  | cons c s => simp [hx]

theorem eq_of_toLower_eq (hc : c.isAlpha = false) (h : c.toLower = x.toLower) :
    c = x := by
  have hlower : ∀ d : Char, d.isUpper = false → d.toLower = d := by
    intro d hd
    unfold Char.toLower
    rw [dif_neg]
    simpa [Char.isUpper] using hd
  have hup : c.isUpper = false := by
    rw [Char.isAlpha, Bool.or_eq_false_iff] at hc
    exact hc.1
  rw [hlower c hup] at h
  by_cases hx : x.val ≥ 'A'.val ∧ x.val ≤ 'Z'.val
  · -- a letter would come from one
    have hval : c.val = x.val + ('a'.val - 'A'.val) := by rw [h, Char.toLower, dif_pos hx]
    have hnat := congrArg UInt32.toNat hval
    simp [Char.isAlpha, Char.isLower, Char.isUpper, UInt32.le_iff_toNat_le] at hc hx hnat
    omega
  · rw [h, Char.toLower, dif_neg hx]

theorem readUtf8_of_isReplaced (h : IsReplaced c) : readUtf8 c = '\uFFFD' := by
  rcases h with rfl | rfl | rfl <;> decide

theorem readUtf8_of_not_isReplaced (h : ¬IsReplaced c) : readUtf8 c = c :=
  if_neg fun hc => h (.inr hc)

/-- A character that is not read as U+FFFD is read as that one only. -/
theorem readUtf8_toLower_iff (hx : ¬IsReplaced x) :
    (readUtf8 x).toLower = (readUtf8 c).toLower ↔ x.toLower = c.toLower := by
  rw [readUtf8_of_not_isReplaced hx]
  by_cases hc : IsReplaced c
  · have hletter : ∀ d, IsReplaced d → x.toLower ≠ d.toLower := by
      intro d hd he
      have halpha : d.isAlpha = false := by
        rcases hd with rfl | rfl | rfl <;> decide
      exact hx (eq_of_toLower_eq halpha he.symm ▸ hd)
    rw [readUtf8_of_isReplaced hc]
    exact iff_of_false (hletter _ (.inl rfl)) (hletter c hc)
  · rw [readUtf8_of_not_isReplaced hc]

theorem readUtf8_toLower (h : x.toLower = c.toLower) :
    (readUtf8 x).toLower = (readUtf8 c).toLower := by
  by_cases hx : IsReplaced x
  · have halpha : x.isAlpha = false := by
      rcases hx with rfl | rfl | rfl <;> decide
    rw [eq_of_toLower_eq halpha h]
  · exact (readUtf8_toLower_iff hx).mpr h

theorem like_everything : like ['%'] s = true := like_percent.mpr ⟨[], List.nil_suffix, rfl⟩

/-- A text is matched by the pattern that is the same text. -/
theorem like_append (ha : SameLetters q a) (hb : like r b = true) :
    like (q ++ r) (a ++ b) = true := by
  induction q generalizing a with
  | nil =>
    obtain rfl : a = [] := by simpa [SameLetters, eq_comm] using ha
    exact hb
  | cons x q ih =>
    cases a with
    | nil => simp [SameLetters] at ha
    | cons c a =>
      rw [SameLetters, List.map_cons, List.map_cons, List.cons.injEq] at ha
      by_cases hx : x = '%'
      · subst hx
        exact like_percent.mpr ⟨a ++ b, List.suffix_cons c _, ih ha.2⟩
      · exact (like_cons hx).mpr ⟨c, a ++ b, rfl, .inr (readUtf8_toLower ha.1), ih ha.2⟩

/-- Without wildcards, and without what is read as U+FFFD, only the same text is matched. -/
theorem like_append_iff (hq : ∀ c ∈ q, c ≠ '%' ∧ c ≠ '_' ∧ ¬IsReplaced c) :
    like (q ++ r) s = true ↔ ∃ a b, s = a ++ b ∧ SameLetters q a ∧ like r b = true := by
  constructor
  · intro h
    induction q generalizing s with
    | nil => exact ⟨[], s, rfl, rfl, h⟩
    | cons x q ih =>
      obtain ⟨hx, hx', hread⟩ := hq x List.mem_cons_self
      obtain ⟨c, t, rfl, hc, ht⟩ := (like_cons hx).mp h
      obtain ⟨a, b, rfl, ha, hb⟩ := ih (fun c hc => hq c (List.mem_cons_of_mem x hc)) ht
      refine ⟨c :: a, b, rfl, ?_, hb⟩
      have he := (readUtf8_toLower_iff hread).mp (hc.resolve_left hx')
      rw [SameLetters, List.map_cons, List.map_cons, he, ha]
  · rintro ⟨a, b, rfl, ha, hb⟩
    exact like_append ha hb

theorem occurs_iff : Occurs q s ↔ ∃ a b t, s = b ++ (a ++ t) ∧ SameLetters q a := by
  constructor
  · rintro ⟨b, t, h⟩
    obtain ⟨ba, t', rfl, hba, -⟩ := List.map_eq_append_iff.mp h.symm
    obtain ⟨b', a, rfl, -, ha⟩ := List.map_eq_append_iff.mp hba
    exact ⟨a, b', t', List.append_assoc b' a t', ha.symm⟩
  · rintro ⟨a, b, t, rfl, ha⟩
    exact ⟨b.map Char.toLower, t.map Char.toLower, by rw [ha]; simp⟩

/-- Between two percent signs a pattern matches the texts in which it occurs. -/
theorem like_of_occurs (h : Occurs q s) : like ('%' :: (q ++ ['%'])) s = true := by
  obtain ⟨a, b, t, rfl, ha⟩ := occurs_iff.mp h
  exact like_percent.mpr ⟨a ++ t, List.suffix_append b _, like_append ha like_everything⟩

theorem like_occurs_iff (hq : ∀ c ∈ q, c ≠ '%' ∧ c ≠ '_' ∧ ¬IsReplaced c) :
    like ('%' :: (q ++ ['%'])) s = true ↔ Occurs q s := by
  refine ⟨fun h => ?_, like_of_occurs⟩
  obtain ⟨u, ⟨b, rfl⟩, hu⟩ := like_percent.mp h
  obtain ⟨a, t, rfl, ha, -⟩ := (like_append_iff hq).mp hu
  exact occurs_iff.mpr ⟨a, b, t, rfl, ha⟩

/-! ## Patterns with wildcards -/

theorem like_sample (hy : IsReplaced y) (hb : like r b = true) :
    like (q ++ r) (sample y q ++ b) = true := by
  induction q with
  | nil => exact hb
  | cons x q ih =>
    by_cases hx : x = '%'
    · subst hx
      exact like_percent.mpr ⟨sample y q ++ b, by simp [sample], ih⟩
    by_cases hx' : x = '_'
    · subst hx'
      exact (like_cons hx).mpr ⟨'a', sample y q ++ b, by simp [sample], .inl rfl, ih⟩
    by_cases hread : IsReplaced x
    · refine (like_cons hx).mpr ⟨y, sample y q ++ b, by simp [sample, hx, hx', hread], .inr ?_, ih⟩
      rw [readUtf8_of_isReplaced hread, readUtf8_of_isReplaced hy]
    · exact (like_cons hx).mpr
        ⟨x, sample y q ++ b, by simp [sample, hx, hx', hread], .inr rfl, ih⟩

theorem mem_sample (h : c ∈ sample y q) :
    (c = 'a' ∨ c = y ∨ c ∈ q) ∧ (c = y ∨ c ≠ '%' ∧ c ≠ '_' ∧ ¬IsReplaced c) := by
  obtain ⟨x, hx, hc⟩ := List.mem_filterMap.mp h
  split_ifs at hc with h₁ h₂ h₃
  · obtain rfl := Option.some.inj hc
    exact ⟨.inl rfl, .inr (by decide)⟩
  · obtain rfl := Option.some.inj hc
    exact ⟨.inr (.inl rfl), .inl rfl⟩
  · obtain rfl := Option.some.inj hc
    exact ⟨.inr (.inr hx), .inr ⟨h₁, h₂, h₃⟩⟩

/-- Characters other than letters occur as themselves. -/
theorem Occurs.mem (h : Occurs q s) (hc : c ∈ q) (halpha : c.isAlpha = false) : c ∈ s := by
  obtain ⟨a, b, t, rfl, ha⟩ := occurs_iff.mp h
  have hmem : c.toLower ∈ a.map Char.toLower := by
    rw [← ha]
    exact List.mem_map_of_mem hc
  obtain ⟨d, hd, he⟩ := List.mem_map.mp hmem
  obtain rfl := eq_of_toLower_eq halpha he.symm
  simp [hd]

end Like

end ScanDaemon
