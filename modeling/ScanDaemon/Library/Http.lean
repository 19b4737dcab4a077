import Mathlib.Data.List.TakeWhile
import Mathlib.Tactic

/-! # Messages that say how long they are

A response of HTTP/1.1 is a status line, fields up to an empty line, and as many
characters as its field `Content-Length` says. A reader recognises the end of a
message, whatever comes behind it, and no beginning of one is a message.
-/

namespace HttpText

structure Message where
  statusCode : ℕ
  reason : List Char
  fields : List (List Char × List Char)
  body : List Char
  deriving DecidableEq, Repr

def crlf : List Char := ['\r', '\n']

def version : List Char := "HTTP/1.1 ".toList

def lengthField : List Char := "Content-Length".toList

def decimal (n : ℕ) : List Char := Nat.toDigits 10 n

namespace Message

variable (m : Message)

def statusLine : List Char := version ++ decimal m.statusCode ++ ' ' :: m.reason

def fieldLines : List (List Char) := m.fields.map fun field => field.1 ++ ':' :: ' ' :: field.2

def text : List Char :=
  (m.statusLine :: m.fieldLines).flatMap (· ++ crlf) ++ crlf ++ m.body

/-- The lines can be told apart, and the length is that of the body. -/
structure WellFormed : Prop where
  code : (decimal m.statusCode).length = 3
  reason : '\r' ∉ m.reason
  names : ∀ field ∈ m.fields, ':' ∉ field.1 ∧ '\r' ∉ field.1
  values : ∀ field ∈ m.fields, '\r' ∉ field.2
  length : m.fields.lookup lengthField = some (decimal m.body.length)

end Message

/-! ## Reading -/

/-- The lines up to the first empty one, where `line` is the beginning of the current line. -/
def readLines (line : List Char) : List Char → Option (List (List Char) × List Char)
  | [] => none
  | [_] => none
  | c :: d :: t =>
    if c = '\r' ∧ d = '\n' then
      if line = [] then some ([], t)
      else (readLines [] t).map fun p => (line :: p.1, p.2)
    else readLines (line ++ [c]) (d :: t)

def readNumber (t : List Char) : Option ℕ :=
  if t ≠ [] ∧ t.all Char.isDigit then some (Nat.ofDigitChars 10 t 0) else none

def readStatus (line : List Char) : Option (ℕ × List Char) := do
  if version <+: line then
    let t := line.drop version.length
    let code ← readNumber (t.take 3)
    if (t.drop 3).head? = some ' ' then some (code, t.drop 4) else none
  else none

def readField (line : List Char) : Option (List Char × List Char) :=
  match line.dropWhile (· ≠ ':') with
  | ':' :: ' ' :: value => some (line.takeWhile (· ≠ ':'), value)
  | _ => none

/-- The fields of the lines of a head; a line that is no field is skipped. -/
def readFields (lines : List (List Char)) : List (List Char × List Char) :=
  lines.filterMap readField

/-- The message that a stream begins with, and what comes behind it. -/
def readMessage (t : List Char) : Option (Message × List Char) := do
  let (lines, rest) ← readLines [] t
  let (code, reason) ← readStatus (lines.headD [])
  let fields := readFields lines.tail
  let length ← (fields.lookup lengthField).bind readNumber
  if length ≤ rest.length then
    some (⟨code, reason, fields, rest.take length⟩, rest.drop length)
  else none

variable {line t rest rest' more : List Char} {lines : List (List Char)} {m m' : Message}
  {field : List Char × List Char} {fields : List (List Char × List Char)} {n : ℕ}

/-! ## A message is read back -/

theorem readLines_append (h : '\r' ∉ t) :
    readLines line (t ++ crlf ++ rest) = readLines (line ++ t) (crlf ++ rest) := by
  induction t generalizing line with
  | nil => simp
  | cons c t ih =>
    have hc : c ≠ '\r' := (List.ne_of_not_mem_cons h).symm
    have hnext : ∃ d u, t ++ crlf ++ rest = d :: u := by
      cases t with
      | nil => exact ⟨_, _, rfl⟩
      | cons d t => exact ⟨_, _, rfl⟩
    obtain ⟨d, u, hu⟩ := hnext
    rw [List.cons_append, List.cons_append, hu, readLines, if_neg (fun h => hc h.1), ← hu,
      ih (List.not_mem_of_not_mem_cons h), List.append_assoc, List.singleton_append]

/-- Lines that are not empty are read up to the empty one behind them. -/
theorem readLines_flatMap (h : ∀ line ∈ lines, '\r' ∉ line ∧ line ≠ []) :
    readLines [] (lines.flatMap (· ++ crlf) ++ crlf ++ rest) = some (lines, rest) := by
  induction lines with
  | nil => rfl
  | cons line lines ih =>
    obtain ⟨hline, hne⟩ := h line List.mem_cons_self
    have hlines := ih fun l hl => h l (List.mem_cons_of_mem _ hl)
    have hsplit : (line :: lines).flatMap (· ++ crlf) ++ crlf ++ rest =
        line ++ crlf ++ (lines.flatMap (· ++ crlf) ++ crlf ++ rest) := by
      simp only [List.flatMap_cons, List.append_assoc]
    rw [hsplit, readLines_append hline, List.nil_append, crlf, List.cons_append, List.cons_append,
      List.nil_append, readLines, if_pos ⟨rfl, rfl⟩, if_neg hne]
    have hcrlf : (['\r', '\n'] : List Char) = crlf := rfl
    rw [hcrlf, hlines, Option.map_some]

theorem readNumber_decimal (n : ℕ) : readNumber (decimal n) = some n := by
  have hdigits : (decimal n).all Char.isDigit = true :=
    List.all_eq_true.mpr fun c hc => Nat.isDigit_of_mem_toDigits (by decide) (by decide) hc
  rw [readNumber, if_pos ⟨Nat.toDigits_ne_nil, hdigits⟩, decimal, Nat.ofDigitChars_ten_toDigits]

theorem readStatus_statusLine (h : (decimal m.statusCode).length = 3) :
    readStatus m.statusLine = some (m.statusCode, m.reason) := by
  have hdrop : m.statusLine.drop version.length = decimal m.statusCode ++ ' ' :: m.reason := by
    rw [Message.statusLine, List.append_assoc, List.drop_left]
  have hpre : version <+: m.statusLine := by
    rw [Message.statusLine, List.append_assoc]
    exact List.prefix_append _ _
  have htake : (decimal m.statusCode ++ ' ' :: m.reason).take 3 = decimal m.statusCode := by
    rw [← h, List.take_left]
  have hskip : (decimal m.statusCode ++ ' ' :: m.reason).drop 3 = ' ' :: m.reason := by
    rw [← h, List.drop_left]
  have hbehind : (decimal m.statusCode ++ ' ' :: m.reason).drop 4 = m.reason := by
    rw [← List.drop_drop (i := 1) (j := 3), hskip, List.drop_one, List.tail_cons]
  simp only [readStatus, if_pos hpre, hdrop, htake, readNumber_decimal, hskip, hbehind]
  rfl

theorem readField_line (h : ':' ∉ field.1) :
    readField (field.1 ++ ':' :: ' ' :: field.2) = some field := by
  have hname : ∀ c ∈ field.1, decide (c ≠ ':') = true := by
    intro c hc
    exact decide_eq_true (ne_of_mem_of_not_mem hc h)
  rw [readField, List.dropWhile_append_of_pos hname, List.takeWhile_append_of_pos hname]
  simp

theorem readFields_lines (h : ∀ field ∈ m.fields, ':' ∉ field.1) :
    readFields m.fieldLines = m.fields := by
  rw [readFields, Message.fieldLines, List.filterMap_map]
  have hread : ∀ field ∈ m.fields,
      (readField ∘ fun field => field.1 ++ ':' :: ' ' :: field.2) field = some field :=
    fun field hf => readField_line (h field hf)
  rw [List.filterMap_congr hread, List.filterMap_some]

/-- A message at the beginning of a stream is read back, and what comes behind it is left. -/
theorem readMessage_text (h : m.WellFormed) : readMessage (m.text ++ rest) = some (m, rest) := by
  have hlines : ∀ line ∈ m.statusLine :: m.fieldLines, '\r' ∉ line ∧ line ≠ [] := by
    intro line hline
    rcases List.mem_cons.mp hline with rfl | hline
    · refine ⟨?_, by simp [Message.statusLine]⟩
      have hcode : '\r' ∉ decimal m.statusCode := by
        intro hc
        exact absurd (Nat.isDigit_of_mem_toDigits (by decide) (by decide) hc) (by decide)
      have hversion : '\r' ∉ version := by decide
      simp [Message.statusLine, hcode, hversion, h.reason]
    · obtain ⟨field, hf, rfl⟩ := List.mem_map.mp hline
      have hname := (h.names field hf).2
      have hvalue := h.values field hf
      exact ⟨by simp [hname, hvalue], by simp⟩
  have hread : readLines [] (m.text ++ rest) =
      some (m.statusLine :: m.fieldLines, m.body ++ rest) := by
    rw [Message.text, List.append_assoc]
    exact readLines_flatMap hlines
  have hfields := readFields_lines fun field hf => (h.names field hf).1
  have hlength : (m.fields.lookup lengthField).bind readNumber = some m.body.length := by
    rw [h.length, Option.bind_some, readNumber_decimal]
  have hle : m.body.length ≤ (m.body ++ rest).length := by simp
  simp only [readMessage, hread, Option.bind_eq_bind, Option.bind_some, List.headD_cons,
    List.tail_cons, readStatus_statusLine h.code, hfields, hlength, if_pos hle, List.take_left,
    List.drop_left]

/-! ## No beginning of a message is one -/

theorem readLines_more (h : readLines line t = some (lines, rest)) :
    readLines line (t ++ more) = some (lines, rest ++ more) := by
  fun_induction readLines line t generalizing lines with
  | case1 | case2 => cases h
  | case3 c d t hcd =>
    cases h
    rw [List.cons_append, List.cons_append, readLines, if_pos hcd, if_pos rfl]
  | case4 line c d t hcd hne ih =>
    obtain ⟨⟨ls, r⟩, hl, hp⟩ := Option.map_eq_some_iff.mp h
    cases hp
    rw [List.cons_append, List.cons_append, readLines, if_pos hcd, if_neg hne, ih hl,
      Option.map_some]
  | case5 line c d t hcd ih =>
    rw [List.cons_append, List.cons_append, readLines, if_neg hcd, ← List.cons_append]
    exact ih h

/-- What has been read does not depend on what comes behind it. -/
theorem readMessage_more (h : readMessage t = some (m, rest)) :
    readMessage (t ++ more) = some (m, rest ++ more) := by
  rw [readMessage, Option.bind_eq_bind] at h
  obtain ⟨⟨lines, r⟩, hlines, h⟩ := Option.bind_eq_some_iff.mp h
  obtain ⟨⟨code, reason⟩, hstatus, h⟩ := Option.bind_eq_some_iff.mp h
  obtain ⟨length, hlength, h⟩ := Option.bind_eq_some_iff.mp h
  split_ifs at h with hle
  cases h
  have hmore : length ≤ (r ++ more).length := by
    rw [List.length_append]
    exact le_add_right hle
  simp only [readMessage, readLines_more hlines, Option.bind_eq_bind, Option.bind_some, hstatus,
    hlength, if_pos hmore]
  rw [List.take_append_of_le_length hle, List.drop_append_of_le_length hle]

/-- A beginning of a message from which a message can be read is all of it. -/
theorem whole_of_readMessage (h : m.WellFormed) (hp : t <+: m.text)
    (hr : readMessage t = some (m', rest)) : t = m.text ∧ m' = m ∧ rest = [] := by
  obtain ⟨more, hmore⟩ := hp
  have hread : readMessage (t ++ more) = some (m', rest ++ more) := readMessage_more hr
  rw [hmore, ← List.append_nil m.text, readMessage_text h] at hread
  obtain ⟨rfl, hnil⟩ := Prod.mk.inj (Option.some.inj hread)
  obtain ⟨rfl, rfl⟩ := List.append_eq_nil_iff.mp hnil.symm
  exact ⟨by rw [← hmore, List.append_nil], rfl, rfl⟩

end HttpText
