import ScanDaemon.Daemon.HttpServer

/-! # Query parameters

`get_query_value` looks for the key and an equals sign anywhere in the query,
so the first parameter that it can stop at is one whose text up to the equals
sign ends in the key.
-/

namespace ScanDaemon

namespace HttpServer

/-- `std::string::find` -/
def find (pattern : List Char) : List Char → Option ℕ
  | [] => if pattern = [] then some 0 else none
  | c :: s => if pattern <+: c :: s then some 0 else (find pattern s).map (· + 1)

/-- `char_to_num`; `none` is −1. -/
def charToNum (c : Char) : Option ℕ :=
  if '0' ≤ c ∧ c ≤ '9' then some (c.toNat - '0'.toNat)
  else if 'a' ≤ c ∧ c ≤ 'f' then some (c.toNat - 'a'.toNat + 10)
  else if 'A' ≤ c ∧ c ≤ 'F' then some (c.toNat - 'A'.toNat + 10)
  else none

/-- The two characters behind a percent sign, if both are hexadecimal digits. -/
def hexByte (h l : Char) : Option Char := do
  let high ← charToNum h
  let low ← charToNum l
  some (Char.ofNat (high <<< 4 ||| low))

/-- A plus sign stands for a space. -/
def plusToSpace (c : Char) : Char := if c = '+' then ' ' else c

/-- The loop that decodes the value. -/
def urlDecode : List Char → List Char
  | [] => []
  | [c] => [plusToSpace c]
  | [c, d] => [plusToSpace c, plusToSpace d]
  | c :: h :: l :: url =>
    match if c = '%' then hexByte h l else none with
    | some d => d :: urlDecode url
    | none => plusToSpace c :: urlDecode (h :: l :: url)

/-- `get_query_value`; `none` is the result `false`, which leaves the value as it is. -/
def getQueryValue (queries key : List Char) : Option (List Char) :=
  let pattern := key ++ ['=']
  match find pattern queries with
  | none => none
  | some start =>
    let url := (queries.drop (start + pattern.length)).takeWhile (· ≠ '&')
    if url = [] then none else some (urlDecode url)

/-- The texts by which a character can be written in a name or a value. -/
inductive EncodesChar : Char → List Char → Prop
  | plain {c : Char} (h : c ∉ ['%', '+', '&', '=']) : EncodesChar c [c]
  | hex {h l c : Char} (eq : hexByte h l = some c) : EncodesChar c ['%', h, l]
  | plus : EncodesChar ' ' ['+']

/-- A text in percent encoding; which characters are escaped is left open. -/
inductive Encodes : List Char → List Char → Prop
  | nil : Encodes [] []
  | cons {c : Char} {cs e es : List Char} (head : EncodesChar c e) (tail : Encodes cs es) :
      Encodes (c :: cs) (e ++ es)

/-- A query parameter and the text that stands for it. -/
structure Param where
  name : List Char
  value : List Char
  encName : List Char
  encValue : List Char
  value_ne : value ≠ []
  name_encodes : Encodes name encName
  value_encodes : Encodes value encValue

def Param.text (p : Param) : List Char := p.encName ++ '=' :: p.encValue

/-- The parameters joined with `&`. -/
def queryText (params : List Param) : List Char := ['&'].intercalate (params.map Param.text)

/-- The first parameter at which the query up to its equals sign ends in the key, where
`before` is the part of the query in front of the parameters. -/
def located (key : List Char) : List Char → List Param → Option Param
  | _, [] => none
  | before, p :: params =>
    if key <:+ before ++ p.encName then some p
    else located key (before ++ p.text ++ ['&']) params

variable {pattern s t l r a b key before e cs : List Char} {c : Char} {n : ℕ} {p q : Param}
  {params : List Param}

theorem find_eq_none (h : find pattern s = none) : ∀ a b, s ≠ a ++ (pattern ++ b) := by
  induction s with
  | nil =>
    rintro a b hs
    have hp : pattern = [] := by
      rw [eq_comm, List.append_eq_nil_iff, List.append_eq_nil_iff] at hs
      exact hs.2.1
    simp [find, hp] at h
  | cons c s ih =>
    unfold find at h
    split at h
    · simp at h
    next hp =>
      rintro (_ | ⟨d, a⟩) b hs
      · exact hp ⟨b, hs.symm⟩
      · rw [List.cons_append, List.cons.injEq] at hs
        exact ih (by simpa using h) a b hs.2

/-- What is found is an occurrence, and the first one. -/
theorem find_eq_some (h : find pattern s = some n) :
    (∃ a b, s = a ++ (pattern ++ b) ∧ a.length = n) ∧
      ∀ a b, s = a ++ (pattern ++ b) → n ≤ a.length := by
  induction s generalizing n with
  | nil =>
    unfold find at h
    split at h
    next hp =>
      obtain rfl : 0 = n := by simpa using h
      exact ⟨⟨[], [], by simp [hp], rfl⟩, fun a b _ => Nat.zero_le _⟩
    · simp at h
  | cons c s ih =>
    unfold find at h
    split at h
    next hp =>
      obtain rfl : 0 = n := by simpa using h
      obtain ⟨b, hb⟩ := hp
      exact ⟨⟨[], b, hb.symm, rfl⟩, fun a b _ => Nat.zero_le _⟩
    next hp =>
      obtain ⟨m, hm, rfl⟩ := Option.map_eq_some_iff.mp h
      obtain ⟨⟨a, b, rfl, hl⟩, hleast⟩ := ih hm
      refine ⟨⟨c :: a, b, rfl, by simp [hl]⟩, ?_⟩
      rintro (_ | ⟨d, a'⟩) b' hs
      · exact absurd ⟨b', hs.symm⟩ hp
      · rw [List.cons_append, List.cons.injEq] at hs
        simpa using hleast a' b' hs.2

/-- A text without a mark in front of one is in front of every other one too. -/
theorem append_mark_cases {x : Char} (hs : x ∉ s) (h : s ++ x :: t = l ++ x :: r) :
    (s = l ∧ t = r) ∨ ∃ m, l = s ++ x :: m ∧ t = m ++ x :: r := by
  induction s generalizing l with
  | nil =>
    cases l with
    | nil => exact Or.inl ⟨rfl, by simpa using h⟩
    | cons d l =>
      rw [List.nil_append, List.cons_append, List.cons.injEq] at h
      exact Or.inr ⟨l, by rw [h.1]; rfl, h.2⟩
  | cons d s ih =>
    cases l with
    | nil =>
      rw [List.cons_append, List.nil_append, List.cons.injEq] at h
      exact absurd h.1 (List.ne_of_not_mem_cons hs).symm
    | cons f l =>
      rw [List.cons_append, List.cons_append, List.cons.injEq] at h
      rcases ih (List.not_mem_of_not_mem_cons hs) h.2 with ⟨rfl, rfl⟩ | ⟨m, rfl, rfl⟩
      · exact Or.inl ⟨by rw [h.1], rfl⟩
      · exact Or.inr ⟨m, by rw [h.1]; rfl, rfl⟩

theorem charToNum_ne_none (h : charToNum c ≠ none) : c ∉ ['%', '+', '&', '='] := by
  simp only [List.mem_cons, List.not_mem_nil, or_false, not_or]
  refine ⟨?_, ?_, ?_, ?_⟩ <;> rintro rfl <;> exact h (by decide)

theorem hexByte_digits {h d : Char} (hb : hexByte h d = some c) :
    h ∉ ['%', '+', '&', '='] ∧ d ∉ ['%', '+', '&', '='] := by
  unfold hexByte at hb
  constructor
  · apply charToNum_ne_none
    intro hn
    simp [hn] at hb
  · apply charToNum_ne_none
    intro hn
    cases hh : charToNum h <;> simp [hh, hn] at hb

theorem Encodes.not_mem (h : Encodes cs e) : '=' ∉ e ∧ '&' ∉ e := by
  induction h with
  | nil => simp
  | @cons c cs e es head _ ih =>
    have he : '=' ∉ e ∧ '&' ∉ e := by
      cases head with
      | plain hc =>
        simp only [List.mem_cons, List.not_mem_nil, or_false, not_or] at hc
        simp [Ne.symm hc.2.2.1, Ne.symm hc.2.2.2]
      | hex hb =>
        have := hexByte_digits hb
        simp only [List.mem_cons, List.not_mem_nil, or_false, not_or] at this ⊢
        tauto
      | plus => decide
    exact ⟨by simp [he.1, ih.1], by simp [he.2, ih.2]⟩

theorem urlDecode_plain (hc : c ≠ '%') : urlDecode (c :: s) = plusToSpace c :: urlDecode s := by
  match s with
  | [] => rfl
  | [d] => rfl
  | h :: d :: s => rw [urlDecode, if_neg hc]

/-- What an encoding stands for is what the loop makes of it. -/
theorem Encodes.urlDecode_eq (h : Encodes cs e) : urlDecode e = cs := by
  induction h with
  | nil => rfl
  | cons head _ ih =>
    cases head with
    | plain hc =>
      simp only [List.mem_cons, List.not_mem_nil, or_false, not_or] at hc
      rw [List.singleton_append, urlDecode_plain hc.1, ih, plusToSpace, if_neg hc.2.1]
    | hex hb =>
      rw [List.cons_append, List.cons_append, List.cons_append, List.nil_append, urlDecode,
        if_pos rfl, hb, ih]
    | plus => rw [List.singleton_append, urlDecode_plain (by decide), ih]; rfl

theorem Encodes.ne_nil (h : Encodes cs e) (hcs : cs ≠ []) : e ≠ [] := by
  rintro rfl
  exact hcs h.urlDecode_eq.symm

theorem queryText_singleton (p : Param) : queryText [p] = p.text := by simp [queryText]

theorem queryText_cons_cons (p q : Param) (params : List Param) :
    queryText (p :: q :: params) = p.text ++ ['&'] ++ queryText (q :: params) := by
  simp [queryText]

/-- Every equals sign in a query is that of its first parameter or comes behind that parameter. -/
theorem queryText_split (h : before ++ queryText (p :: params) = l ++ '=' :: r)
    (hl : before.length ≤ l.length) :
    l = before ++ p.encName ∨
      params ≠ [] ∧ (before ++ p.text ++ ['&']).length ≤ l.length := by
  obtain ⟨l, rfl⟩ : before <+: l :=
    List.prefix_of_prefix_length_le (List.prefix_append _ _) ⟨_, h.symm⟩ hl
  rw [List.append_assoc, List.append_cancel_left_eq] at h
  cases params with
  | nil =>
    rw [queryText_singleton, Param.text] at h
    rcases append_mark_cases p.name_encodes.not_mem.1 h with ⟨rfl, -⟩ | ⟨m, -, hm⟩
    · exact Or.inl rfl
    · exact absurd (hm ▸ by simp) p.value_encodes.not_mem.1
  | cons q params =>
    rw [queryText_cons_cons, Param.text, List.append_assoc, List.append_assoc,
      List.cons_append] at h
    rcases append_mark_cases p.name_encodes.not_mem.1 h with ⟨rfl, -⟩ | ⟨m, rfl, hm⟩
    · exact Or.inl rfl
    · refine Or.inr ⟨List.cons_ne_nil _ _, ?_⟩
      have hnot : '=' ∉ p.encValue ++ ['&'] := by simp [p.value_encodes.not_mem.1]
      have hle : (p.encValue ++ ['&']).length ≤ m.length := by
        rw [← List.append_assoc] at hm
        rcases List.append_eq_append_iff.mp hm with ⟨m', rfl, -⟩ | ⟨m', hm', hr⟩
        · simp
        · cases m' with
          | nil => simp [hm']
          | cons x m' =>
            rw [List.cons_append, List.cons.injEq] at hr
            obtain ⟨rfl, -⟩ := hr
            exact absurd (hm' ▸ by simp) hnot
      simp only [List.length_append, List.length_cons, List.length_nil, Param.text] at hle ⊢
      omega

/-- What `located` finds is the first equals sign that the key stands in front of. -/
structure FirstSign (key before s l r : List Char) : Prop where
  eq : s = l ++ '=' :: r
  behind : before.length ≤ l.length
  key_suffix : key <:+ l
  first : ∀ l' r', s = l' ++ '=' :: r' → before.length ≤ l'.length → key <:+ l' →
    l.length ≤ l'.length

theorem located_eq_none (h : located key before params = none) :
    ∀ l r, before ++ queryText params = l ++ '=' :: r → before.length ≤ l.length →
      ¬ key <:+ l := by
  induction params generalizing before with
  | nil =>
    rintro l r hs hl
    have := congrArg List.length hs
    simp [queryText] at this
    omega
  | cons p params ih =>
    rintro l r hs hl hk
    unfold located at h
    split at h
    · simp at h
    next hp =>
      rcases queryText_split hs hl with rfl | ⟨hne, hle⟩
      · exact hp hk
      · obtain ⟨q, params, rfl⟩ := List.exists_cons_of_ne_nil hne
        rw [queryText_cons_cons, ← List.append_assoc, ← List.append_assoc] at hs
        exact ih h l r hs hle hk

theorem located_eq_some (h : located key before params = some p) :
    ∃ l back, FirstSign key before (before ++ queryText params) l (p.encValue ++ back) ∧
      ∀ c ∈ back.head?, c = '&' := by
  induction params generalizing before with
  | nil => simp [located] at h
  | cons q params ih =>
    unfold located at h
    split at h
    next hk =>
      obtain rfl : q = p := by simpa using h
      have hfirst : ∀ l' r', before ++ queryText (q :: params) = l' ++ '=' :: r' →
          before.length ≤ l'.length → key <:+ l' →
            (before ++ q.encName).length ≤ l'.length := by
        rintro l' r' hs hl -
        rcases queryText_split hs hl with rfl | ⟨-, hle⟩
        · exact le_rfl
        · simp only [List.length_append, List.length_cons, Param.text] at hle ⊢
          omega
      cases params with
      | nil =>
        refine ⟨before ++ q.encName, [], ⟨?_, by simp, hk, hfirst⟩, by simp⟩
        simp [queryText_singleton, Param.text]
      | cons q' params =>
        refine ⟨before ++ q.encName, '&' :: queryText (q' :: params),
          ⟨?_, by simp, hk, hfirst⟩, by simp⟩
        simp [queryText_cons_cons, Param.text]
    next hk =>
      obtain ⟨l, back, hsign, hback⟩ := ih h
      cases params with
      | nil => simp [located] at h
      | cons q' params =>
        have hs : before ++ queryText (q :: q' :: params) =
            before ++ q.text ++ ['&'] ++ queryText (q' :: params) := by
          simp [queryText_cons_cons]
        refine ⟨l, back, ⟨hs ▸ hsign.eq, ?_, hsign.key_suffix, ?_⟩, hback⟩
        · have := hsign.behind
          simp only [List.length_append] at this
          omega
        · rintro l' r' hs' hl hk'
          rcases queryText_split hs' hl with rfl | ⟨-, hle⟩
          · exact absurd hk' hk
          · exact hsign.first l' r' (hs ▸ hs') hle hk'

/-- The value found is that of the parameter located. -/
theorem getQueryValue_queryText (params : List Param) (key : List Char) :
    getQueryValue (queryText params) key = (located key [] params).map Param.value := by
  have sign_iff : ∀ a b, queryText params = a ++ (key ++ ['='] ++ b) ↔
      queryText params = (a ++ key) ++ '=' :: b := by simp
  cases h : located key [] params with
  | none =>
    cases hf : find (key ++ ['=']) (queryText params) with
    | none => simp [getQueryValue, hf]
    | some n =>
      obtain ⟨⟨a, b, hs, -⟩, -⟩ := find_eq_some hf
      exact absurd (List.suffix_append a key)
        (located_eq_none h _ b ((sign_iff a b).mp hs) (Nat.zero_le _))
  | some p =>
    obtain ⟨l, back, hsign, hback⟩ := located_eq_some h
    obtain ⟨a, rfl⟩ := hsign.key_suffix
    rw [List.nil_append] at hsign
    cases hf : find (key ++ ['=']) (queryText params) with
    | none => exact absurd ((sign_iff a _).mpr hsign.eq) (find_eq_none hf a _)
    | some n =>
      obtain ⟨⟨a', b, hs, rfl⟩, hleast⟩ := find_eq_some hf
      have hle := hleast a _ ((sign_iff a _).mpr hsign.eq)
      have hge := hsign.first (a' ++ key) b ((sign_iff a' b).mp hs) (Nat.zero_le _)
        (List.suffix_append a' key)
      have hlen : a'.length + (key ++ ['=']).length = (a ++ key ++ ['=']).length := by
        simp only [List.length_append] at hge ⊢
        omega
      have hdrop : (queryText params).drop (a'.length + (key ++ ['=']).length) =
          p.encValue ++ back := by
        have hs' : a ++ key ++ '=' :: (p.encValue ++ back) =
            (a ++ key ++ ['=']) ++ (p.encValue ++ back) := by simp
        rw [hlen, hsign.eq, hs', List.drop_left]
      have htake : (p.encValue ++ back).takeWhile (· ≠ '&') = p.encValue := by
        refine takeWhile_append_of_ends (fun c hc => ?_) (fun c hc => by simp [hback c hc])
        simpa using ne_of_mem_of_not_mem hc p.value_encodes.not_mem.2
      unfold getQueryValue
      simp only [hf, hdrop, htake, if_neg (p.value_encodes.ne_nil p.value_ne),
        p.value_encodes.urlDecode_eq, Option.map_some]

/-- The query answers for a key as the list of parameters does. -/
structure Answers (params : List Param) (key : List Char) : Prop where
  named : ∀ p ∈ params, p.name = key → getQueryValue (queryText params) key = some p.value
  absent : (∀ p ∈ params, p.name ≠ key) → getQueryValue (queryText params) key = none

/-- The parameter named so is the first one at which the text in front of an equals sign ends
in the key, or another one with the same value is; for a key that is no name there is none. -/
def NamedFirst (params : List Param) (key : List Char) : Prop :=
  (located key [] params).map Param.value = (params.find? (·.name = key)).map Param.value

/-- A key without `&` cannot reach into the parameter in front. -/
theorem suffix_behind_iff (h : '&' ∉ key) : key <:+ b ++ ['&'] ++ e ↔ key <:+ e := by
  refine ⟨fun hk => ?_, fun hk => hk.trans (List.suffix_append _ e)⟩
  rcases Nat.lt_or_ge e.length key.length with hlt | hle
  · have hsuf : '&' :: e <:+ key := by
      refine List.suffix_of_suffix_length_le ?_ hk hlt
      rw [List.append_assoc]
      exact List.suffix_append b _
    exact absurd (hsuf.subset List.mem_cons_self) h
  · exact List.suffix_of_suffix_length_le hk (List.suffix_append _ e) hle

/-- A key without `&` is located by the ends of the encoded names alone. -/
theorem located_eq_find (h : '&' ∉ key) :
    located key [] params = params.find? fun p => key <:+ p.encName := by
  have behind : ∀ (params : List Param) (b : List Char),
      located key (b ++ ['&']) params = params.find? fun p => key <:+ p.encName := by
    intro params
    induction params with
    | nil => exact fun _ => rfl
    | cons p params ih =>
      intro b
      rw [located, List.find?_cons]
      by_cases hk : key <:+ p.encName
      · simp only [hk, (suffix_behind_iff h).mpr hk, if_true, decide_true]
      · simp only [hk, (suffix_behind_iff h).not.mpr hk, if_false, decide_false]
        exact ih _
  cases params with
  | nil => rfl
  | cons p params =>
    rw [located, List.find?_cons, List.nil_append, behind]
    by_cases hk : key <:+ p.encName <;> simp [hk]

/-- Among different names the one looked for is found. -/
theorem find_name (hd : (params.map Param.name).Nodup) (hp : p ∈ params) :
    params.find? (·.name = p.name) = some p := by
  induction params with
  | nil => simp at hp
  | cons q params ih =>
    rw [List.map_cons, List.nodup_cons] at hd
    rw [List.find?_cons]
    rcases List.mem_cons.mp hp with rfl | hp
    · simp
    · have hq : q.name ≠ p.name := fun he => hd.1 (he ▸ List.mem_map_of_mem hp)
      simp [hq, ih hd.2 hp]

/-- `get_query_value` answers for a key as the parameters do exactly if the first one that it
can stop at has the value of the one named so. -/
theorem getQueryValue_iff (params : List Param) (key : List Char)
    (hd : (params.map Param.name).Nodup) :
    (Answers params key ↔ NamedFirst params key) ∧
      ('&' ∉ key → located key [] params = params.find? fun p => key <:+ p.encName) := by
  refine ⟨?_, located_eq_find⟩
  rw [NamedFirst, ← getQueryValue_queryText]
  constructor
  · rintro ⟨named, absent⟩
    cases hf : params.find? (·.name = key) with
    | none => exact absent (by simpa using hf)
    | some p => exact named p (List.mem_of_find?_eq_some hf) (by simpa using List.find?_some hf)
  · intro h
    constructor
    · rintro p hp rfl
      rw [h, find_name hd hp, Option.map_some]
    · intro hn
      rw [h, List.find?_eq_none.mpr (by simpa using hn), Option.map_none]

/-- Texts in which nothing has to be escaped. -/
theorem encodes_self : (∀ c ∈ s, c ∉ ['%', '+', '&', '=']) → Encodes s s := by
  induction s with
  | nil => exact fun _ => .nil
  | cons c s ih =>
    intro h
    exact .cons (.plain (h c List.mem_cons_self)) (ih fun d hd => h d (List.mem_cons_of_mem _ hd))

/-- A parameter with nothing to escape. -/
def plainParam (name value : List Char) (hn : ∀ c ∈ name, c ∉ ['%', '+', '&', '='])
    (hv : ∀ c ∈ value, c ∉ ['%', '+', '&', '=']) (hne : value ≠ []) : Param :=
  ⟨name, value, name, value, hne, encodes_self hn, encodes_self hv⟩

def idParam : Param := plainParam ['i', 'd'] ['7'] (by simp) (by simp) (by simp)

def oidParam : Param := plainParam ['o', 'i', 'd'] ['5'] (by simp) (by simp) (by simp)

/-- The identifier in front of the other one is found. -/
theorem getQueryValue_id : Answers [idParam, oidParam] ['i', 'd'] :=
  (getQueryValue_iff [idParam, oidParam] ['i', 'd'] (by decide)).1.mpr
    (by unfold NamedFirst; decide +kernel)

/-- In "oid=5&id=7" the value of "id" is 5. -/
theorem getQueryValue_oid :
    ([oidParam, idParam].map Param.name).Nodup ∧ idParam ∈ [oidParam, idParam] ∧
      idParam.name = ['i', 'd'] ∧ idParam.value = ['7'] ∧
      queryText [oidParam, idParam] = "oid=5&id=7".toList ∧
      getQueryValue (queryText [oidParam, idParam]) ['i', 'd'] = some ['5'] ∧
      ¬ Answers [oidParam, idParam] ['i', 'd'] := by
  have hget : getQueryValue (queryText [oidParam, idParam]) ['i', 'd'] = some ['5'] := by
    decide +kernel
  refine ⟨by decide, by simp, rfl, rfl, by decide +kernel, hget, ?_⟩
  rintro ⟨named, -⟩
  exact absurd (hget.symm.trans (named idParam (by simp) rfl)) (by decide)

end HttpServer

end ScanDaemon
