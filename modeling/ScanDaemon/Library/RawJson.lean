import ScanDaemon.Library.Json

/-! # JSON written without escapes

A writer that puts every string between quotes as it is. Its text is read back
as the value that was written exactly if all characters of all strings stand for
themselves. In one direction this is the round trip. In the other one, an escape
makes a string shorter, and a string that goes on behind the place where its
closing quote was written ends with a piece of the text between two strings.
-/

namespace JsonText

/-! ## Writing -/

/-- The decimal digits of an integer. -/
def intText (m : ℤ) : List Char :=
  if m < 0 then '-' :: Nat.toDigits 10 m.natAbs else Nat.toDigits 10 m.natAbs

def numText (m e : ℤ) : List Char := intText m ++ if e = 0 then [] else 'e' :: intText e

/-- The texts with a comma between two of them. -/
def joined : List (List Char) → List Char
  | [] => []
  | w :: ws => w ++ ws.flatMap (',' :: ·)

def quoted (s : List Char) : List Char := '"' :: s ++ ['"']

mutual

/-- The text of a value with its strings as they are. -/
def raw : Json → List Char
  | .null => ['n', 'u', 'l', 'l']
  | .bool true => ['t', 'r', 'u', 'e']
  | .bool false => ['f', 'a', 'l', 's', 'e']
  | .num m e => numText m e
  | .str s => quoted s
  | .arr items => '[' :: joined (rawItems items) ++ [']']
  | .obj members => '{' :: joined (rawMembers members) ++ ['}']

def rawItems : List Json → List (List Char)
  | [] => []
  | v :: vs => raw v :: rawItems vs

def rawMembers : List (List Char × Json) → List (List Char)
  | [] => []
  | (k, v) :: ms => (quoted k ++ ':' :: raw v) :: rawMembers ms

end

def rawMember (p : List Char × Json) : List Char := quoted p.1 ++ ':' :: raw p.2

/-- All characters of a string stand for themselves. -/
def PlainText (s : List Char) : Prop := ∀ c ∈ s, Plain c

/-- All strings of a value are plain. -/
inductive Json.IsPlain : Json → Prop where
  | null : IsPlain .null
  | bool (b : Bool) : IsPlain (.bool b)
  | num (m e : ℤ) : IsPlain (.num m e)
  | str {s : List Char} : PlainText s → IsPlain (.str s)
  | arr {items : List Json} : (∀ v ∈ items, IsPlain v) → IsPlain (.arr items)
  | obj {members : List (List Char × Json)} :
      (∀ p ∈ members, PlainText p.1) → (∀ p ∈ members, IsPlain p.2) → IsPlain (.obj members)

/-- The characters between two quotes and the string that they stand for, as far as the length of
the string and the places of quotes are concerned. -/
inductive Literal : List Char → List Char → Prop where
  | nil : Literal [] []
  | plain {c : Char} {u s : List Char} : Plain c → Literal u s → Literal (c :: u) (c :: s)
  | escape {w u s : List Char} (c : Char) : w ≠ [] → ('"' ∈ w → w = ['"']) → Literal u s →
      Literal ('\\' :: w ++ u) (c :: s)

variable {v : Json} {vs : List Json} {ms : List (List Char × Json)} {c : Char} {n : ℕ} {m e : ℤ}
  {s t t' u w a b rest : List Char}

@[simp] theorem rawItems_eq : rawItems vs = vs.map raw := by
  induction vs with
  | nil => rfl
  | cons v vs ih => rw [rawItems, ih, List.map_cons]

@[simp] theorem rawMembers_eq : rawMembers ms = ms.map rawMember := by
  induction ms with
  | nil => rfl
  | cons p ms ih => rw [rawMembers, ih, List.map_cons, rawMember]

@[simp] theorem plainText_nil : PlainText [] := fun _ => nofun

@[simp] theorem plainText_cons : PlainText (c :: s) ↔ Plain c ∧ PlainText s := List.forall_mem_cons

@[simp] theorem raw_str : raw (.str s) = quoted s := rfl

@[simp] theorem raw_arr : raw (.arr vs) = '[' :: joined (vs.map raw) ++ [']'] := by
  rw [raw, rawItems_eq]

@[simp] theorem raw_obj : raw (.obj ms) = '{' :: joined (ms.map rawMember) ++ ['}'] := by
  rw [raw, rawMembers_eq]

@[simp] theorem Json.isPlain_num : (Json.num m e).IsPlain := .num m e

@[simp] theorem Json.isPlain_str : (Json.str s).IsPlain ↔ PlainText s :=
  ⟨fun | .str h => h, .str⟩

@[simp] theorem Json.isPlain_arr : (Json.arr vs).IsPlain ↔ ∀ v ∈ vs, v.IsPlain :=
  ⟨fun | .arr h => h, .arr⟩

@[simp] theorem Json.isPlain_obj :
    (Json.obj ms).IsPlain ↔ ∀ p ∈ ms, PlainText p.1 ∧ p.2.IsPlain :=
  ⟨fun | .obj h h' => fun p hp => ⟨h p hp, h' p hp⟩,
    fun h => .obj (fun p hp => (h p hp).1) fun p hp => (h p hp).2⟩

/-! ## Strings -/

namespace Literal

theorem length_le (h : Literal u s) : s.length ≤ u.length := by
  induction h with
  | nil => exact le_rfl
  | plain _ _ ih => simpa using ih
  | escape _ _ _ ih =>
    simp only [List.length_cons, List.cons_append, List.length_append]
    omega

/-- Only characters that stand for themselves make a string as long as its text. -/
theorem plain_of_length (h : Literal u s) (hlength : u.length = s.length) :
    u = s ∧ PlainText s := by
  induction h with
  | nil => simp
  | plain hc _ ih =>
    obtain ⟨rfl, hs⟩ := ih (by simpa using hlength)
    exact ⟨rfl, plainText_cons.mpr ⟨hc, hs⟩⟩
  | @escape w u s c hw _ hu _ =>
    have hle := hu.length_le
    have hpos := List.length_pos_iff.mpr hw
    simp only [List.length_cons, List.cons_append, List.length_append] at hlength
    omega

/-- A quote is behind an escape, or it is the escaped character. -/
theorem split_escape (hquote : '"' ∈ w → w = ['"']) (h : '\\' :: w ++ u = a ++ '"' :: b) :
    (∃ a', a = '\\' :: w ++ a' ∧ u = a' ++ '"' :: b) ∨ a = ['\\'] ∧ u = b := by
  rcases List.append_eq_append_iff.mp h with h | ⟨x, hx, hu⟩
  · exact .inl h
  · cases x with
    | nil => exact .inl ⟨[], by simpa using hx.symm, by simpa using hu.symm⟩
    | cons q x =>
      obtain ⟨rfl, rfl⟩ := List.cons.inj hu
      cases a with
      | nil => exact absurd (List.cons.inj hx).1 (by decide)
      | cons d a =>
        obtain ⟨rfl, rfl⟩ := List.cons.inj hx
        have hw := congrArg List.length (hquote (List.mem_append_right a List.mem_cons_self))
        simp at hw
        obtain rfl : a = [] := List.length_eq_zero_iff.mp (by omega)
        obtain rfl : x = [] := List.length_eq_zero_iff.mp (by omega)
        exact .inr ⟨rfl, rfl⟩

/-- A quote inside is escaped. -/
theorem escaped (h : Literal u s) (hu : u = a ++ '"' :: b) :
    ∃ a', a = a' ++ ['\\'] := by
  induction h generalizing a with
  | nil => simp at hu
  | @plain c u s hc _ ih =>
    cases a with
    | nil =>
      obtain ⟨rfl, -⟩ := List.cons.inj hu
      exact absurd rfl hc.2.1
    | cons d a =>
      obtain ⟨rfl, hu'⟩ := List.cons.inj hu
      obtain ⟨a', rfl⟩ := ih hu'
      exact ⟨c :: a', rfl⟩
  | @escape w u s c _ hquote _ ih =>
    rcases split_escape hquote hu with ⟨a', rfl, hu'⟩ | ⟨rfl, -⟩
    · obtain ⟨a'', rfl⟩ := ih hu'
      exact ⟨'\\' :: w ++ a'', by simp⟩
    · exact ⟨[], rfl⟩

theorem eq_of_no_escape (h : Literal u s) (hu : '\\' ∉ u) : u = s := by
  induction h with
  | nil => rfl
  | plain _ _ ih => rw [ih fun hm => hu (List.mem_cons_of_mem _ hm)]
  | escape => exact absurd List.mem_cons_self hu

/-- What follows an escaped quote and has no escapes stands for itself. -/
theorem ends (h : Literal u s) (hu : u = a ++ '"' :: b)
    (hb : '\\' ∉ b) : b <:+ s := by
  induction h generalizing a with
  | nil => simp at hu
  | @plain c u s hc _ ih =>
    cases a with
    | nil =>
      obtain ⟨rfl, -⟩ := List.cons.inj hu
      exact absurd rfl hc.2.1
    | cons d a => exact (ih (List.cons.inj hu).2).trans (List.suffix_cons c s)
  | @escape w u s c _ hquote _ ih =>
    rcases split_escape hquote hu with ⟨a', -, hu'⟩ | ⟨-, rfl⟩
    · exact (ih hu').trans (List.suffix_cons c s)
    · rename_i hs
      rw [hs.eq_of_no_escape hb]
      exact List.suffix_cons c s

end Literal

theorem hexDigit_ne_quote (h : hexDigit c = some n) : c ≠ '"' := by
  rintro rfl
  have hnone : hexDigit '"' = none := by decide
  exact absurd (h.symm.trans hnone) nofun

theorem readHex_sound (h : readHex t = some (n, t')) :
    ∃ w, w ≠ [] ∧ '"' ∉ w ∧ t = w ++ t' := by
  unfold readHex at h
  split at h
  next a b c d t =>
    simp only [Option.bind_eq_bind, Option.bind_eq_some_iff, Option.some.injEq, Prod.mk.injEq] at h
    obtain ⟨_, ha, _, hb, _, hc, _, hd, -, rfl⟩ := h
    refine ⟨[a, b, c, d], List.cons_ne_nil _ _, ?_, rfl⟩
    simp [(hexDigit_ne_quote ha).symm, (hexDigit_ne_quote hb).symm, (hexDigit_ne_quote hc).symm,
      (hexDigit_ne_quote hd).symm]
  next => exact absurd h nofun

theorem readLow_sound (h : readLow t = some (n, t')) : ∃ w, '"' ∉ w ∧ t = w ++ t' := by
  unfold readLow at h
  split at h
  next d e t =>
    split at h
    next hde =>
      simp only [Option.bind_eq_bind, Option.bind_eq_some_iff, Prod.exists,
        Option.ite_none_right_eq_some, Option.some.injEq, Prod.mk.injEq] at h
      obtain ⟨k, x, hhex, -, -, rfl⟩ := h
      obtain ⟨w, -, hw, rfl⟩ := readHex_sound hhex
      obtain ⟨rfl, rfl⟩ := hde
      exact ⟨'\\' :: 'u' :: w, by simpa using hw, rfl⟩
    next => exact absurd h nofun
  next => exact absurd h nofun

theorem readUnicode_sound (h : readUnicode t = some (c, t')) : ∃ w, '"' ∉ w ∧ t = w ++ t' := by
  unfold readUnicode at h
  simp only [Option.bind_eq_bind, Option.bind_eq_some_iff, Prod.exists] at h
  obtain ⟨k, x, hhex, h⟩ := h
  obtain ⟨w, -, hw, rfl⟩ := readHex_sound hhex
  split at h
  · simp only [Option.bind_eq_some_iff, Prod.exists, Option.some.injEq, Prod.mk.injEq] at h
    obtain ⟨m, y, hlow, -, rfl⟩ := h
    obtain ⟨w', hw', rfl⟩ := readLow_sound hlow
    exact ⟨w ++ w', by simp [hw, hw'], by simp⟩
  · split at h
    · exact absurd h nofun
    · obtain ⟨-, rfl⟩ := Prod.mk.inj (Option.some.inj h)
      exact ⟨w, hw, rfl⟩

/-- A character is read from itself or from an escape. -/
theorem readChar_sound (h : readChar t = some (c, t')) :
    (Plain c ∧ t = c :: t') ∨
      ∃ w, w ≠ [] ∧ ('"' ∈ w → w = ['"']) ∧ t = '\\' :: w ++ t' := by
  cases t with
  | nil => exact absurd h nofun
  | cons d t =>
    rw [readChar.eq_def] at h
    dsimp only at h
    split at h
    next hd =>
      obtain ⟨rfl, rfl⟩ := Prod.mk.inj (Option.some.inj h)
      exact .inl ⟨hd, rfl⟩
    next =>
      split at h
      next hd =>
        subst hd
        right
        cases t with
        | nil => exact absurd h nofun
        | cons e t =>
          dsimp only at h
          split at h
          next he =>
            obtain ⟨w, hw, rfl⟩ := readUnicode_sound h
            refine ⟨e :: w, List.cons_ne_nil e w, fun hm => ?_, rfl⟩
            rw [he] at hm
            exact absurd hm (by simpa using hw)
          next =>
            obtain ⟨_, -, hsome⟩ := Option.map_eq_some_iff.mp h
            obtain ⟨-, rfl⟩ := Prod.mk.inj hsome
            refine ⟨[e], List.cons_ne_nil e [], fun hm => ?_, rfl⟩
            rw [List.mem_singleton.mp hm]
      next => exact absurd h nofun

theorem readString_sound (h : readString n t = some (s, t')) :
    ∃ u, Literal u s ∧ t = u ++ '"' :: t' := by
  induction n generalizing s t with
  | zero => exact absurd h nofun
  | succ n ih =>
    unfold readString at h
    split at h
    next hquote =>
      obtain ⟨rfl, rfl⟩ := Prod.mk.inj (Option.some.inj h)
      exact ⟨[], .nil, (List.cons_head?_tail hquote).symm⟩
    next =>
      simp only [Option.bind_eq_bind, Option.bind_eq_some_iff, Prod.exists, Option.some.injEq,
        Prod.mk.injEq] at h
      obtain ⟨c, x, hchar, s', _, hrest, rfl, rfl⟩ := h
      obtain ⟨u, hu, rfl⟩ := ih hrest
      rcases readChar_sound hchar with ⟨hc, rfl⟩ | ⟨w, hw, hquote, rfl⟩
      · exact ⟨c :: u, .plain hc hu, rfl⟩
      · exact ⟨'\\' :: w ++ u, .escape c hw hquote hu, by simp⟩

theorem readString_complete (hs : PlainText s) (hn : s.length < n) :
    readString n (s ++ '"' :: t) = some (s, t) := by
  induction s generalizing n with
  | nil =>
    cases n with
    | zero => exact absurd hn (Nat.not_lt_zero _)
    | succ n => simp [readString]
  | cons c s ih =>
    cases n with
    | zero => exact absurd hn (Nat.not_lt_zero _)
    | succ n =>
      have hc : Plain c := hs c List.mem_cons_self
      have hrest : readString n (s ++ '"' :: t) = some (s, t) :=
        ih (fun d hd => hs d (List.mem_cons_of_mem c hd)) (Nat.lt_of_succ_lt_succ hn)
      simp [readString, readChar, hc, hc.2.1, hrest]

/-- There is no backslash before the next quote. -/
def Quiet (t : List Char) : Prop := '\\' ∉ t.takeWhile (· ≠ '"')

/-- What may stand behind a value or a name: the end, or a punctuation mark and no backslash before
the next quote. -/
def Follow (t : List Char) : Prop := (∀ c ∈ t.head?, c ∈ [',', ':', ']', '}']) ∧ Quiet t

theorem quiet_quote : Quiet ('"' :: t) := by simp [Quiet]

theorem Quiet.append (ha : '\\' ∉ a) (ht : Quiet t) : Quiet (a ++ t) := by
  induction a with
  | nil => exact ht
  | cons c a ih =>
    have hc : '\\' ≠ c := fun he => ha (he ▸ List.mem_cons_self)
    have hrest := ih fun hm => ha (List.mem_cons_of_mem c hm)
    unfold Quiet at hrest ⊢
    rw [List.cons_append, List.takeWhile_cons]
    split
    · exact fun hm => (List.mem_cons.mp hm).elim hc hrest
    · exact List.not_mem_nil

theorem Quiet.no_escape (h : Quiet (a ++ '"' :: b)) (ha : '"' ∉ a) : '\\' ∉ a := by
  have hrun : (a ++ '"' :: b).takeWhile (· ≠ '"') = a := by
    have hquote : ∀ c ∈ a, decide (c ≠ '"') = true := fun c hc =>
      decide_eq_true fun he => ha (he ▸ hc)
    rw [List.takeWhile_append_of_pos hquote]
    simp
  rwa [Quiet, hrun] at h

/-- Between a closing quote and the next quote there is some text without a backslash. -/
theorem Follow.gap (h : Follow (a ++ '"' :: b)) (ha : '"' ∉ a) : a ≠ [] ∧ '\\' ∉ a := by
  refine ⟨?_, h.2.no_escape ha⟩
  rintro rfl
  exact absurd (h.1 '"' rfl) (by decide)

theorem last_mem_of_suffix (h : a <:+ b ++ [c]) (ha : a ≠ []) : c ∈ a := by
  obtain ⟨w, hw⟩ := h
  obtain ⟨a', d, rfl⟩ := List.eq_nil_or_concat a |>.resolve_left ha
  rw [List.concat_eq_append, ← List.append_assoc] at hw
  obtain rfl : d = c := by simpa using (List.append_inj' hw rfl).2
  simp

/-- A string does not go on behind the place where its closing quote was written. -/
theorem Literal.not_longer (h : Literal (s ++ '"' :: b) s) (ht : Follow (b ++ '"' :: t)) :
    False := by
  by_cases hquote : '"' ∈ b
  · -- the first quote in the rest is escaped
    obtain ⟨g, x, rfl, hg⟩ := List.eq_append_cons_of_mem hquote
    rw [List.append_assoc] at ht
    obtain ⟨hne, hslash⟩ := ht.gap hg
    obtain ⟨a, ha⟩ := h.escaped (a := s ++ '"' :: g) (b := x) (by simp)
    have hsuffix : g <:+ s ++ '"' :: g := (List.suffix_cons '"' g).trans (List.suffix_append s _)
    exact hslash (last_mem_of_suffix (ha ▸ hsuffix) hne)
  · -- the string ends with a backslash, and with the rest
    obtain ⟨hne, hslash⟩ := ht.gap hquote
    obtain ⟨a, ha⟩ := h.escaped rfl
    have hsuffix := h.ends rfl hslash
    exact hslash (last_mem_of_suffix (ha ▸ hsuffix) hne)

/-- A string that was written as it is is read back exactly if it is plain. -/
theorem readString_iff (hn : s.length < n) (ht : Follow t) :
    readString n (s ++ '"' :: t) = some (s, t') ↔ PlainText s ∧ t' = t := by
  constructor
  · intro h
    obtain ⟨u, hu, htext⟩ := readString_sound h
    have hprefix : s <+: u := List.prefix_of_prefix_length_le ⟨_, htext⟩ ⟨_, rfl⟩ hu.length_le
    obtain ⟨v, rfl⟩ := hprefix
    rw [List.append_assoc, List.append_cancel_left_eq] at htext
    cases v with
    | nil =>
      rw [List.append_nil] at hu
      exact ⟨(hu.plain_of_length rfl).2, (List.cons.inj htext).2.symm⟩
    | cons q v =>
      obtain ⟨rfl, rfl⟩ := List.cons.inj htext
      exact (hu.not_longer ht).elim
  · rintro ⟨hs, rfl⟩
    exact readString_complete hs hn

/-! ## Numbers -/

section Numbers

variable {k : ℕ}

theorem isDigit_of_mem (h : c ∈ Nat.toDigits 10 k) : c.isDigit = true :=
  Nat.isDigit_of_mem_toDigits (by decide) (by decide) h

theorem head_toDigits_ne_zero (hk : 0 < k) : (Nat.toDigits 10 k).head? ≠ some '0' := by
  induction k using Nat.strong_induction_on with
  | h k ih =>
    by_cases hlt : k < 10
    · rw [Nat.toDigits_of_lt_base hlt, List.head?_cons, Ne, Option.some.injEq,
        Nat.digitChar_eq_zero]
      omega
    · have hdiv := ih (k / 10) (by omega) (by omega)
      rw [Nat.toDigits_of_base_le (by decide) (by omega), List.head?_append]
      cases hd : (Nat.toDigits 10 (k / 10)).head? with
      | none => exact absurd (List.head?_eq_none_iff.mp hd) Nat.toDigits_ne_nil
      | some d => simpa [hd] using hdiv

/-- Only the number zero begins with a zero. -/
theorem no_leading_zero :
    ¬(1 < (Nat.toDigits 10 k).length ∧ (Nat.toDigits 10 k).head? = some '0') := by
  rintro ⟨hlength, hhead⟩
  cases k with
  | zero => simp at hlength
  | succ k => exact head_toDigits_ne_zero (Nat.succ_pos k) hhead

/-- The first character of the text of an integer is the sign or a digit. -/
theorem intText_head : ∃ d u, intText m = d :: u ∧ (d = '-' ∨ d.isDigit = true) := by
  unfold intText
  split
  · exact ⟨'-', _, rfl, .inl rfl⟩
  · obtain ⟨d, u, hd⟩ := List.exists_cons_of_ne_nil (Nat.toDigits_ne_nil (b := 10) (n := m.natAbs))
    exact ⟨d, u, hd, .inr (isDigit_of_mem (hd ▸ List.mem_cons_self))⟩

theorem readSign_intText :
    readSign (intText m ++ t) = (decide (m < 0), Nat.toDigits 10 m.natAbs ++ t) := by
  unfold intText
  split
  next hm => simp [readSign, hm]
  next hm =>
    obtain ⟨d, u, hd⟩ := List.exists_cons_of_ne_nil (Nat.toDigits_ne_nil (b := 10) (n := m.natAbs))
    have hdigit : d.isDigit = true := isDigit_of_mem (hd ▸ List.mem_cons_self)
    have hne : d ≠ '-' := by
      rintro rfl
      exact absurd hdigit (by decide)
    simp [hd, readSign, hne, hm]

@[simp] theorem signed_natAbs : signed (decide (m < 0)) (natOf (Nat.toDigits 10 m.natAbs)) = m := by
  rw [natOf, Nat.ofDigitChars_ten_toDigits]
  unfold signed
  split
  next hm =>
    have := of_decide_eq_true hm
    omega
  next hm =>
    have := of_decide_eq_false (Bool.not_eq_true _ ▸ hm)
    omega

theorem takeWhile_toDigits (ht : ∀ c ∈ t.head?, c.isDigit = false) :
    (Nat.toDigits 10 k ++ t).takeWhile Char.isDigit = Nat.toDigits 10 k := by
  rw [List.takeWhile_append_of_pos fun c => isDigit_of_mem]
  cases t with
  | nil => simp
  | cons d t => simp [ht d rfl]

theorem dropWhile_toDigits (ht : ∀ c ∈ t.head?, c.isDigit = false) :
    (Nat.toDigits 10 k ++ t).dropWhile Char.isDigit = t := by
  rw [List.dropWhile_append_of_pos fun c => isDigit_of_mem]
  cases t with
  | nil => simp
  | cons d t => simp [ht d rfl]

theorem readExponent_intText (ht : ∀ c ∈ t.head?, c.isDigit = false) :
    readExponent ('e' :: (intText e ++ t)) = some (e, t) := by
  have hplus : (intText e ++ t).head? ≠ some '+' := by
    obtain ⟨d, u, hd, hsign⟩ := intText_head (m := e)
    rw [hd, List.cons_append, List.head?_cons, Ne, Option.some.injEq]
    rintro rfl
    exact absurd hsign (by decide)
  rw [readExponent, if_pos (.inl rfl), if_neg hplus, readSign_intText]
  dsimp only
  rw [takeWhile_toDigits ht, dropWhile_toDigits ht, if_neg Nat.toDigits_ne_nil, signed_natAbs]

theorem readNumber_numText (ht : Follow t) :
    readNumber (numText m e ++ t) = some (.num m e, t) := by
  have hhead : ∀ c ∈ t.head?, c.isDigit = false ∧ c ≠ '.' ∧ c ≠ 'e' ∧ c ≠ 'E' := by
    intro c hc
    have := ht.1 c hc
    simp only [List.mem_cons, List.not_mem_nil, or_false] at this
    rcases this with rfl | rfl | rfl | rfl <;> decide
  have hdigit : ∀ c ∈ t.head?, c.isDigit = false := fun c hc => (hhead c hc).1
  unfold numText readNumber
  by_cases he : e = 0
  · have hfraction : readFraction t = some ([], t) := by
      cases t with
      | nil => rfl
      | cons d t => simp [readFraction, (hhead d rfl).2.1]
    have hexponent : readExponent t = some (0, t) := by
      cases t with
      | nil => rfl
      | cons d t => simp [readExponent, (hhead d rfl).2.2]
    simp [he, readSign_intText, takeWhile_toDigits hdigit, dropWhile_toDigits hdigit,
      no_leading_zero, Nat.toDigits_ne_nil, hfraction, hexponent]
  · have hnext : ∀ c ∈ ('e' :: (intText e ++ t)).head?, c.isDigit = false := by
      rintro c ⟨⟩
      rfl
    simp [he, readSign_intText, takeWhile_toDigits hnext, dropWhile_toDigits hnext,
      no_leading_zero, Nat.toDigits_ne_nil, readFraction, readExponent_intText hdigit]

end Numbers

/-! ## Arrays and objects -/

/-- What a reader does with the text of an item, where the item is read back exactly if `plain`
holds of it. -/
structure Shows {α : Type} (item : List Char → Option (α × List Char)) (text : α → List Char)
    (plain : α → Prop) (v : α) : Prop where
  head : ∃ c u, text v = c :: u ∧ isSpace c = false ∧ c ≠ ']' ∧ c ≠ '}'
  quiet : ∀ {t}, Quiet t → Quiet (text v ++ t)
  read : ∀ {t}, Follow t → ∀ t', item (text v ++ t) = some (v, t') ↔ plain v ∧ t' = t

theorem skipSpace_cons (hc : isSpace c = false) : skipSpace (c :: t) = c :: t := by
  simp [skipSpace, hc]

section Items

variable {α : Type} {close : Char} {item : List Char → Option (α × List Char)}
  {text : α → List Char} {plain : α → Prop} {x : α} {xs ys : List α}

/-- The text behind an item. -/
theorem follow_more (hclose : close = ']' ∨ close = '}') (h : ∀ x ∈ xs, Shows item text plain x)
    (ht : Quiet t) : Follow ((xs.map text).flatMap (',' :: ·) ++ close :: t) := by
  have hend : Follow (close :: t) := by
    have hquiet : Quiet (close :: t) := Quiet.append (a := [close])
      (by rcases hclose with rfl | rfl <;> decide) ht
    exact ⟨by rcases hclose with rfl | rfl <;> simp, hquiet⟩
  induction xs with
  | nil => exact hend
  | cons x xs ih =>
    have hrest := ih fun y hy => h y (List.mem_cons_of_mem x hy)
    refine ⟨by simp, ?_⟩
    have hquiet := (h x List.mem_cons_self).quiet hrest.2
    simpa using Quiet.append (a := [',']) (by decide) hquiet

theorem quiet_joined (hclose : close = ']' ∨ close = '}') (h : ∀ x ∈ xs, Shows item text plain x)
    (ht : Quiet t) : Quiet (joined (xs.map text) ++ close :: t) := by
  cases xs with
  | nil => exact (follow_more hclose h ht).2
  | cons x xs =>
    have hrest := follow_more hclose (fun y hy => h y (List.mem_cons_of_mem x hy)) ht
    simpa [joined] using (h x List.mem_cons_self).quiet hrest.2

/-- An item and the items behind it are read back exactly if each of them is. -/
theorem read_cons_iff {more : List Char → Option (List α × List Char)}
    (hitem : ∀ t', item (text x ++ rest) = some (x, t') ↔ plain x ∧ t' = rest)
    (hmore : ∀ t', more rest = some (xs, t') ↔ (∀ y ∈ xs, plain y) ∧ t' = t) :
    ((item (text x ++ rest)).bind fun p => (more p.2).bind fun q => some (p.1 :: q.1, q.2)) =
      some (x :: xs, t') ↔ (∀ y ∈ x :: xs, plain y) ∧ t' = t := by
  simp only [Option.bind_eq_some_iff, Prod.exists, Option.some.injEq, Prod.mk.injEq,
    List.cons.injEq]
  constructor
  · rintro ⟨_, _, hx, _, _, hxs, ⟨rfl, rfl⟩, rfl⟩
    obtain ⟨hplain, rfl⟩ := (hitem _).mp hx
    obtain ⟨hall, rfl⟩ := (hmore _).mp hxs
    exact ⟨List.forall_mem_cons.mpr ⟨hplain, hall⟩, rfl⟩
  · rintro ⟨hall, rfl⟩
    obtain ⟨hplain, hall⟩ := List.forall_mem_cons.mp hall
    exact ⟨x, rest, (hitem _).mpr ⟨hplain, rfl⟩, xs, t', (hmore _).mpr ⟨hall, rfl⟩, ⟨rfl, rfl⟩, rfl⟩

theorem readMore_iff (hclose : close = ']' ∨ close = '}') (h : ∀ x ∈ xs, Shows item text plain x)
    (hn : xs.length < n) (ht : Follow t) :
    readMore close item n ((xs.map text).flatMap (',' :: ·) ++ close :: t) = some (xs, t') ↔
      (∀ x ∈ xs, plain x) ∧ t' = t := by
  have hspace : isSpace close = false := by rcases hclose with rfl | rfl <;> rfl
  have hcomma : ',' ≠ close := by rcases hclose with rfl | rfl <;> decide
  induction xs generalizing n t' with
  | nil =>
    cases n with
    | zero => exact absurd hn (Nat.not_lt_zero _)
    | succ n => simp [readMore, skipSpace_cons hspace, eq_comm]
  | cons x xs ih =>
    cases n with
    | zero => exact absurd hn (Nat.not_lt_zero _)
    | succ n =>
      have hx := h x List.mem_cons_self
      have hxs : ∀ y ∈ xs, Shows item text plain y := fun y hy => h y (List.mem_cons_of_mem x hy)
      have hread := hx.read (follow_more hclose hxs ht.2)
      have hmore := fun t' => @ih n t' hxs (Nat.lt_of_succ_lt_succ hn)
      have hstart : ((x :: xs).map text).flatMap (',' :: ·) ++ close :: t =
          ',' :: (text x ++ ((xs.map text).flatMap (',' :: ·) ++ close :: t)) := by simp
      rw [hstart, readMore, skipSpace_cons rfl]
      simp only [if_neg hcomma, if_pos]
      exact read_cons_iff hread hmore

/-- The items between two brackets are read back exactly if each of them is. -/
theorem readItems_iff (hclose : close = ']' ∨ close = '}') (h : ∀ x ∈ xs, Shows item text plain x)
    (hn : xs.length ≤ n) (ht : Follow t) :
    readItems close item n (joined (xs.map text) ++ close :: t) = some (xs, t') ↔
      (∀ x ∈ xs, plain x) ∧ t' = t := by
  cases xs with
  | nil =>
    have hspace : isSpace close = false := by rcases hclose with rfl | rfl <;> rfl
    simp [joined, readItems, skipSpace_cons hspace, eq_comm]
  | cons x xs =>
    have hx := h x List.mem_cons_self
    have hxs : ∀ y ∈ xs, Shows item text plain y := fun y hy => h y (List.mem_cons_of_mem x hy)
    have hread := hx.read (follow_more hclose hxs ht.2)
    obtain ⟨c, u, hu, hspace, hbracket, hbrace⟩ := hx.head
    have hne : c ≠ close := by rcases hclose with rfl | rfl <;> assumption
    have hstart : joined ((x :: xs).map text) ++ close :: t =
        text x ++ ((xs.map text).flatMap (',' :: ·) ++ close :: t) := by simp [joined]
    have hskip : skipSpace (text x ++ ((xs.map text).flatMap (',' :: ·) ++ close :: t)) =
        c :: (u ++ ((xs.map text).flatMap (',' :: ·) ++ close :: t)) := by
      rw [hu, List.cons_append, skipSpace_cons hspace]
    rw [hstart, readItems, hskip]
    simp only [if_neg hne]
    rw [← List.cons_append, ← hu]
    exact read_cons_iff hread fun _ => readMore_iff hclose hxs hn ht

end Items

theorem length_le_joined {ws : List (List Char)} (h : w ∈ ws) : w.length ≤ (joined ws).length := by
  have hmore : ∀ {ws : List (List Char)}, w ∈ ws → w.length ≤ (ws.flatMap (',' :: ·)).length := by
    intro ws hw
    have := List.Sublist.length_le
      (List.sublist_flatten_of_mem (List.mem_map_of_mem (f := (',' :: ·)) hw))
    simp only [List.length_cons, ← List.flatMap_def] at this
    omega
  cases ws with
  | nil => exact absurd h List.not_mem_nil
  | cons d ws =>
    rw [joined, List.length_append]
    rcases List.mem_cons.mp h with rfl | h
    · omega
    · have := hmore h
      omega

theorem card_le_joined (ws : List (List Char)) : ws.length ≤ (joined ws).length + 1 := by
  have hmore : ∀ ws : List (List Char), ws.length ≤ (ws.flatMap (',' :: ·)).length := by
    intro ws
    induction ws with
    | nil => exact le_rfl
    | cons w ws ih =>
      simp only [List.flatMap_cons, List.length_cons, List.length_append]
      omega
  cases ws with
  | nil => exact Nat.zero_le _
  | cons w ws =>
    have := hmore ws
    simp only [joined, List.length_cons, List.length_append]
    omega

/-- A member is read back if its value is. -/
theorem shows_member {p : List Char × Json} (hv : Shows (readValue n) raw Json.IsPlain p.2)
    (hn : p.1.length < n) :
    Shows (readMember (readValue n) n) rawMember (fun p => PlainText p.1 ∧ p.2.IsPlain) p := by
  obtain ⟨k, v⟩ := p
  have htext : ∀ t, rawMember (k, v) ++ t = '"' :: (k ++ '"' :: ':' :: (raw v ++ t)) := by
    simp [rawMember, quoted]
  constructor
  · exact ⟨'"', k ++ '"' :: ':' :: raw v, by simp [rawMember, quoted], rfl, by decide, by decide⟩
  · intro t _
    rw [htext]
    exact quiet_quote
  · intro t ht t'
    have hcolon : Follow (':' :: (raw v ++ t)) :=
      ⟨by simp, Quiet.append (a := [':']) (by decide) (hv.quiet ht.2)⟩
    rw [htext, readMember, skipSpace_cons rfl]
    simp only [if_pos, Option.bind_eq_bind, Option.bind_eq_some_iff, Prod.exists]
    constructor
    · rintro ⟨k', rest, hk, hrest⟩
      cases hskip : skipSpace rest with
      | nil =>
        rw [hskip] at hrest
        exact absurd hrest nofun
      | cons c r =>
        rw [hskip] at hrest
        dsimp only at hrest
        split at hrest
        next =>
          simp only [Option.bind_eq_some_iff, Prod.exists, Option.some.injEq,
            Prod.mk.injEq] at hrest
          obtain ⟨v', r', hvalue, ⟨rfl, rfl⟩, rfl⟩ := hrest
          obtain ⟨hplain, rfl⟩ := (readString_iff hn hcolon).mp hk
          rw [skipSpace_cons rfl] at hskip
          obtain ⟨-, rfl⟩ := List.cons.inj hskip
          obtain ⟨hv', rfl⟩ := (hv.read ht _).mp hvalue
          exact ⟨⟨hplain, hv'⟩, rfl⟩
        next => exact absurd hrest nofun
    · rintro ⟨⟨hk, hplain⟩, rfl⟩
      refine ⟨k, _, (readString_iff hn hcolon).mpr ⟨hk, rfl⟩, ?_⟩
      rw [skipSpace_cons rfl]
      simp [(hv.read ht _).mpr ⟨hplain, rfl⟩]

/-- The text of a number has only the sign, digits and the mark of the exponent. -/
theorem mem_numText (h : c ∈ numText m e) : c = '-' ∨ c = 'e' ∨ c.isDigit = true := by
  have hint : ∀ {k : ℤ}, c ∈ intText k → c = '-' ∨ c.isDigit = true := by
    intro k hk
    unfold intText at hk
    split at hk
    · rcases List.mem_cons.mp hk with rfl | hk
      · exact .inl rfl
      · exact .inr (isDigit_of_mem hk)
    · exact .inr (isDigit_of_mem hk)
  rcases List.mem_append.mp h with h | h
  · exact (hint h).imp_right .inr
  · split at h
    · exact absurd h List.not_mem_nil
    · rcases List.mem_cons.mp h with rfl | h
      · exact .inr (.inl rfl)
      · exact (hint h).imp_right .inr

theorem numText_head : ∃ d u, numText m e = d :: u ∧ (d = '-' ∨ d.isDigit = true) := by
  obtain ⟨d, u, hd, hsign⟩ := intText_head (m := m)
  exact ⟨d, u ++ if e = 0 then [] else 'e' :: intText e, by simp [numText, hd], hsign⟩

/-- A digit or a sign begins neither a word nor a string nor a bracket, and is no space. -/
theorem numChar_spec (h : c = '-' ∨ c.isDigit = true) :
    isSpace c = false ∧ c ∉ ['"', '[', ']', '{', '}', 'n', 't', 'f'] := by
  rcases h with rfl | h
  · decide
  · constructor
    · simp only [isSpace, Bool.or_eq_false_iff, decide_eq_false_iff_not]
      refine ⟨⟨⟨?_, ?_⟩, ?_⟩, ?_⟩ <;> rintro rfl <;> exact absurd h (by decide)
    · intro hm
      simp only [List.mem_cons, List.not_mem_nil, or_false] at hm
      rcases hm with rfl | rfl | rfl | rfl | rfl | rfl | rfl | rfl <;> exact absurd h (by decide)

theorem shows_null : Shows (readValue (n + 1)) raw Json.IsPlain .null := by
  constructor
  · exact ⟨'n', _, rfl, rfl, by decide, by decide⟩
  · exact Quiet.append (by decide)
  · intro t _ t'
    simp [raw, readValue, skipSpace, isSpace, readWord, Json.IsPlain.null, eq_comm]

theorem shows_bool {b : Bool} : Shows (readValue (n + 1)) raw Json.IsPlain (.bool b) := by
  constructor
  · cases b
    · exact ⟨'f', _, rfl, rfl, by decide, by decide⟩
    · exact ⟨'t', _, rfl, rfl, by decide, by decide⟩
  · cases b <;> exact Quiet.append (by decide)
  · intro t _ t'
    cases b <;> simp [raw, readValue, skipSpace, isSpace, readWord, Json.IsPlain.bool, eq_comm]

theorem shows_num : Shows (readValue (n + 1)) raw Json.IsPlain (.num m e) := by
  obtain ⟨d, u, hd, hsign⟩ := numText_head (m := m) (e := e)
  obtain ⟨hspace, hother⟩ := numChar_spec hsign
  simp only [List.mem_cons, List.not_mem_nil, or_false, not_or] at hother
  constructor
  · exact ⟨d, u, hd, hspace, hother.2.2.1, hother.2.2.2.2.1⟩
  · intro t ht
    refine Quiet.append (fun hm => ?_) ht
    rcases mem_numText hm with h | h | h <;> exact absurd h (by decide)
  · intro t ht t'
    have hnumber := readNumber_numText (m := m) (e := e) ht
    rw [hd, List.cons_append] at hnumber
    rw [raw, hd, readValue, List.cons_append, skipSpace_cons hspace]
    simp [hother, hnumber, eq_comm]

theorem shows_str (hn : s.length < n) : Shows (readValue (n + 1)) raw Json.IsPlain (.str s) := by
  have htext : ∀ t, raw (.str s) ++ t = '"' :: (s ++ '"' :: t) := by simp [raw, quoted]
  constructor
  · exact ⟨'"', _, rfl, rfl, by decide, by decide⟩
  · intro t _
    rw [htext]
    exact quiet_quote
  · intro t ht t'
    rw [htext, readValue, skipSpace_cons rfl]
    simp [readString_iff hn ht]

theorem shows_arr (hn : (joined (vs.map raw)).length < n)
    (h : ∀ v ∈ vs, Shows (readValue n) raw Json.IsPlain v) :
    Shows (readValue (n + 1)) raw Json.IsPlain (.arr vs) := by
  have htext : ∀ t, raw (.arr vs) ++ t = '[' :: (joined (vs.map raw) ++ ']' :: t) := by simp [raw]
  have hcard := card_le_joined (vs.map raw)
  rw [List.length_map] at hcard
  constructor
  · exact ⟨'[', _, rfl, rfl, by decide, by decide⟩
  · intro t ht
    rw [htext]
    exact Quiet.append (a := ['[']) (by decide) (quiet_joined (.inl rfl) h ht)
  · intro t ht t'
    have hitems : readItems ']' (readValue n) n (joined (vs.map raw) ++ ']' :: t) = some (vs, t') ↔
        (∀ v ∈ vs, v.IsPlain) ∧ t' = t := readItems_iff (.inl rfl) h (by omega) ht
    rw [htext, readValue, skipSpace_cons rfl]
    simp [hitems]

theorem shows_obj (hn : (joined (ms.map rawMember)).length < n)
    (h : ∀ p ∈ ms, Shows (readValue n) raw Json.IsPlain p.2) :
    Shows (readValue (n + 1)) raw Json.IsPlain (.obj ms) := by
  have htext : ∀ t, raw (.obj ms) ++ t = '{' :: (joined (ms.map rawMember) ++ '}' :: t) := by
    simp [raw]
  have hcard := card_le_joined (ms.map rawMember)
  rw [List.length_map] at hcard
  have hmembers : ∀ p ∈ ms, Shows (readMember (readValue n) n) rawMember
      (fun p => PlainText p.1 ∧ p.2.IsPlain) p := by
    intro p hp
    refine shows_member (h p hp) ?_
    have := length_le_joined (List.mem_map_of_mem (f := rawMember) hp)
    simp only [rawMember, quoted, List.length_append, List.length_cons, List.length_nil] at this
    omega
  constructor
  · exact ⟨'{', _, rfl, rfl, by decide, by decide⟩
  · intro t ht
    rw [htext]
    exact Quiet.append (a := ['{']) (by decide) (quiet_joined (.inr rfl) hmembers ht)
  · intro t ht t'
    have hitems : readItems '}' (readMember (readValue n) n) n
        (joined (ms.map rawMember) ++ '}' :: t) = some (ms, t') ↔
        (∀ p ∈ ms, PlainText p.1 ∧ p.2.IsPlain) ∧ t' = t :=
      readItems_iff (.inr rfl) hmembers (by omega) ht
    rw [htext, readValue, skipSpace_cons rfl]
    simp [hitems]

/-- A value is read back from its text exactly if it is plain. -/
theorem shows_value (hn : (raw v).length < n) : Shows (readValue n) raw Json.IsPlain v := by
  obtain ⟨n, rfl⟩ := Nat.exists_eq_add_one_of_ne_zero (Nat.ne_zero_of_lt hn)
  induction v generalizing n with
  | null => exact shows_null
  | bool b => exact shows_bool
  | num m e => exact shows_num
  | str s =>
    simp only [raw, quoted, List.length_append, List.length_cons, List.length_nil] at hn
    exact shows_str (by omega)
  | arr items ih =>
    simp only [raw, rawItems_eq, List.length_append, List.length_cons, List.length_nil] at hn
    refine shows_arr (by omega) fun v hv => ?_
    have hlength := length_le_joined (List.mem_map_of_mem (f := raw) hv)
    obtain ⟨k, rfl⟩ : ∃ k, n = k + 1 := Nat.exists_eq_add_one_of_ne_zero (by omega)
    exact ih v hv k (by omega)
  | obj members ih =>
    simp only [raw, rawMembers_eq, List.length_append, List.length_cons, List.length_nil] at hn
    refine shows_obj (by omega) fun p hp => ?_
    have hlength := length_le_joined (List.mem_map_of_mem (f := rawMember) hp)
    simp only [rawMember, List.length_append, List.length_cons] at hlength
    obtain ⟨k, rfl⟩ : ∃ k, n = k + 1 := Nat.exists_eq_add_one_of_ne_zero (by omega)
    exact ih p hp k (by omega)

/-- **A text without escapes is the text of its value exactly if all strings are plain.** -/
theorem parse_raw_iff : parse (raw v) = some v ↔ v.IsPlain := by
  have hread :=
    (shows_value (Nat.lt_succ_self (raw v).length)).read (t := []) ⟨nofun, by simp [Quiet]⟩
  rw [List.append_nil] at hread
  unfold parse
  simp only [Option.bind_eq_bind, Option.bind_eq_some_iff, Prod.exists,
    Option.ite_none_right_eq_some, Option.some.injEq]
  constructor
  · rintro ⟨_, _, hvalue, -, rfl⟩
    exact ((hread _).mp hvalue).1
  · intro h
    exact ⟨v, [], (hread _).mpr ⟨h, rfl⟩, rfl, rfl⟩

end JsonText
