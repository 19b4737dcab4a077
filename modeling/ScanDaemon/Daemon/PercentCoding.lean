import ScanDaemon.Daemon.Query

/-! # Percent coding

The decoding of a value undoes its percent-encoding. An escape begins with a
percent sign, which is no hexadecimal digit, so that every other percent sign
separates two parts of the value that are decoded on their own.
-/

namespace ScanDaemon

namespace HttpServer

/-- The characters that need no escape. -/
def isUnreserved (c : Char) : Bool :=
  ('A' ≤ c && c ≤ 'Z') || ('a' ≤ c && c ≤ 'z') || ('0' ≤ c && c ≤ '9') ||
    c == '-' || c == '_' || c == '.' || c == '~'

def isHexDigit (c : Char) : Bool :=
  ('0' ≤ c && c ≤ '9') || ('a' ≤ c && c ≤ 'f') || ('A' ≤ c && c ≤ 'F')

/-- The hexadecimal digits of a number below 16. -/
def hexDigits (n : ℕ) : List Char :=
  if n < 10 then [Char.ofNat ('0'.toNat + n)]
  else [Char.ofNat ('A'.toNat + (n - 10)), Char.ofNat ('a'.toNat + (n - 10))]

/-- The texts that stand for a byte in percent-encoding. -/
inductive PercentChar : Char → List Char → Prop
  | unreserved {c : Char} (h : isUnreserved c = true) : PercentChar c [c]
  | hex {c h l : Char} (byte : c.toNat < 256) (high : h ∈ hexDigits (c.toNat / 16))
      (low : l ∈ hexDigits (c.toNat % 16)) : PercentChar c ['%', h, l]
  | space : PercentChar ' ' ['+']

/-- The percent-encodings of a byte string. -/
inductive PercentEncodes : List Char → List Char → Prop
  | nil : PercentEncodes [] []
  | cons {c : Char} {cs e es : List Char} (head : PercentChar c e) (tail : PercentEncodes cs es) :
      PercentEncodes (c :: cs) (e ++ es)

/-- The text begins with two hexadecimal digits. -/
def BeginsHex (s : List Char) : Prop :=
  ∃ h l t, s = h :: l :: t ∧ isHexDigit h = true ∧ isHexDigit l = true

variable {c d h l : Char} {n : ℕ} {s a b cs e key url : List Char}

/-! ## What an escape stands for -/

theorem charToNum_hexDigits (hn : n < 16) (hd : d ∈ hexDigits n) : charToNum d = some n := by
  have h : ((List.range 16).all fun n =>
      (hexDigits n).all fun d => charToNum d = some n) = true := by
    decide
  have h := List.all_eq_true.mp (List.all_eq_true.mp h n (List.mem_range.mpr hn)) d hd
  exact of_decide_eq_true h

theorem charToNum_eq_none (hc : isHexDigit c = false) : charToNum c = none := by
  simp only [isHexDigit, Bool.or_eq_false_iff, Bool.and_eq_false_iff, decide_eq_false_iff_not] at hc
  unfold charToNum
  rw [if_neg (by tauto), if_neg (by tauto), if_neg (by tauto)]

theorem hexByte_hexDigits (byte : c.toNat < 256) (high : h ∈ hexDigits (c.toNat / 16))
    (low : l ∈ hexDigits (c.toNat % 16)) : hexByte h l = some c := by
  have hlow : c.toNat % 16 < 2 ^ 4 := Nat.mod_lt _ (by decide)
  rw [hexByte, charToNum_hexDigits (by omega) high, charToNum_hexDigits (by omega) low]
  simp only [Option.bind_eq_bind, Option.bind_some]
  rw [← Nat.shiftLeft_add_eq_or_of_lt hlow, Nat.shiftLeft_eq, Nat.div_add_mod', Char.ofNat_toNat]

theorem PercentChar.encodesChar (hc : PercentChar c e) : EncodesChar c e := by
  cases hc with
  | unreserved hc =>
    apply EncodesChar.plain
    simp only [List.mem_cons, List.not_mem_nil, or_false, not_or]
    refine ⟨?_, ?_, ?_, ?_⟩ <;> rintro rfl <;> exact absurd hc (by decide)
  | hex byte high low => exact .hex (hexByte_hexDigits byte high low)
  | space => exact .plus

theorem PercentEncodes.encodes (hs : PercentEncodes cs e) : Encodes cs e := by
  induction hs with
  | nil => exact .nil
  | cons head _ ih => exact .cons head.encodesChar ih

/-! ## The loop -/

theorem length_urlDecode : (urlDecode url).length ≤ url.length := by
  fun_induction urlDecode url with
  | case1 | case2 | case3 => simp
  | case4 _ _ _ _ _ _ ih =>
    simp only [List.length_cons]
    omega
  | case5 _ _ _ _ _ ih =>
    simp only [List.length_cons] at ih ⊢
    omega

/-- A character that begins no escape is decoded on its own. -/
theorem urlDecode_cons (hs : ∀ h l t, c = '%' → s = h :: l :: t → hexByte h l = none) :
    urlDecode (c :: s) = plusToSpace c :: urlDecode s := by
  match s with
  | [] => rfl
  | [d] => rfl
  | h :: l :: t =>
    rw [urlDecode]
    split_ifs with hc
    · rw [hs h l t hc rfl]
    · rfl

theorem hexByte_eq_none (hd : isHexDigit h = false ∨ isHexDigit l = false) :
    hexByte h l = none := by
  rcases hd with hd | hd
  · simp [hexByte, charToNum_eq_none hd]
  · cases hh : charToNum h <;> simp [hexByte, hh, charToNum_eq_none hd]

/-- No escape reaches beyond a percent sign. -/
theorem urlDecode_append : urlDecode (a ++ '%' :: b) = urlDecode a ++ urlDecode ('%' :: b) := by
  have hno : isHexDigit '%' = false := by decide
  have hlast : ∀ c, urlDecode (c :: '%' :: b) = plusToSpace c :: urlDecode ('%' :: b) := by
    intro c
    apply urlDecode_cons
    rintro h l t - ⟨⟩
    exact hexByte_eq_none (.inl hno)
  fun_induction urlDecode a with
  | case1 => rfl
  | case2 c => exact hlast c
  | case3 c d =>
    rw [List.cons_append, urlDecode_cons]
    · exact congrArg _ (hlast d)
    · rintro h l t - ⟨⟩
      exact hexByte_eq_none (.inr hno)
  | case4 c h l url d hd ih =>
    rw [List.cons_append, List.cons_append, List.cons_append, urlDecode, hd, ih, List.cons_append]
  | case5 c h l url hd ih =>
    rw [List.cons_append, List.cons_append, List.cons_append, urlDecode, hd, List.cons_append]
    exact congrArg _ ih

theorem urlDecode_percent (hb : ¬BeginsHex b) : urlDecode ('%' :: b) = '%' :: urlDecode b := by
  apply urlDecode_cons
  rintro h l t - rfl
  apply hexByte_eq_none
  by_contra hd
  rw [not_or, Bool.not_eq_false, Bool.not_eq_false] at hd
  exact hb ⟨h, l, t, rfl, hd⟩

/-- The value behind the key is decoded. -/
theorem getQueryValue_self (hne : url ≠ []) (hamp : '&' ∉ url) :
    getQueryValue (key ++ '=' :: url) key = some (urlDecode url) := by
  have hquery : key ++ '=' :: url = (key ++ ['=']) ++ url := by simp
  have hfind : find (key ++ ['=']) (key ++ '=' :: url) = some 0 := by
    rw [hquery]
    cases key with
    | nil => exact if_pos (List.prefix_append _ _)
    | cons k key => exact if_pos (List.prefix_append _ _)
  have htake : url.takeWhile (· ≠ '&') = url := by
    rw [List.takeWhile_eq_self_iff]
    intro c hc
    simpa using ne_of_mem_of_not_mem hc hamp
  unfold getQueryValue
  simp only [hfind, Nat.zero_add]
  rw [hquery, List.drop_left, htake, if_neg hne]

/-- Decoding undoes the percent-encoding of a value; and for every text the loop ends with an output
that is no longer, in which each percent sign without two digits behind it is kept. -/
theorem percent_coding :
    (∀ key value enc, value ≠ [] → PercentEncodes value enc →
      getQueryValue (key ++ '=' :: enc) key = some value) ∧
    ∀ url,
      (∀ key, url ≠ [] → '&' ∉ url →
        getQueryValue (key ++ '=' :: url) key = some (urlDecode url)) ∧
      (urlDecode url).length ≤ url.length ∧
      ∀ a b, url = a ++ '%' :: b → ¬BeginsHex b →
        urlDecode url = urlDecode a ++ '%' :: urlDecode b := by
  constructor
  · intro key value enc hne hs
    have hs := hs.encodes
    rw [getQueryValue_self (hs.ne_nil hne) hs.not_mem.2, hs.urlDecode_eq]
  · intro url
    refine ⟨fun key hne hamp => getQueryValue_self hne hamp, length_urlDecode, ?_⟩
    rintro a b rfl hb
    rw [urlDecode_append, urlDecode_percent hb]

/-- The byte 0xE9 at the end of a value, and a percent sign that begins no escape. -/
theorem percent_coding_last :
    getQueryValue "q=%25%E9".toList ['q'] = some ['%', Char.ofNat 0xE9] ∧
      urlDecode "%g%41".toList = '%' :: urlDecode "g%41".toList := by
  constructor
  · refine percent_coding.1 ['q'] ['%', Char.ofNat 0xE9] "%25%E9".toList (by simp) ?_
    exact .cons (.hex (h := '2') (l := '5') (by decide) (by decide) (by decide))
      (.cons (.hex (h := 'E') (l := '9') (by decide) (by decide) (by decide)) .nil)
  · apply (percent_coding.2 "%g%41".toList).2.2 [] _ rfl
    rintro ⟨h, l, t, ⟨⟩, hh, -⟩
    exact absurd hh (by decide)

end HttpServer

end ScanDaemon
