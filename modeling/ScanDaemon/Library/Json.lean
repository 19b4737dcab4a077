import Mathlib.Data.List.TakeWhile
import Mathlib.Tactic

/-! # JSON texts

The values of JSON and a reader for its grammar: white space, the three words,
numbers, strings with their escapes, arrays and objects. An object keeps its
members in order, and a number `m * 10 ^ e` is the pair of `m` and `e`.
-/

namespace JsonText

inductive Json where
  | null
  | bool (b : Bool)
  | num (m e : ℤ)
  | str (s : List Char)
  | arr (items : List Json)
  | obj (members : List (List Char × Json))

/-- Induction over a value with the hypothesis for every item and every member. -/
@[elab_as_elim, induction_eliminator]
theorem Json.rec' {motive : Json → Prop} (null : motive .null) (bool : ∀ b, motive (.bool b))
    (num : ∀ m e, motive (.num m e)) (str : ∀ s, motive (.str s))
    (arr : ∀ items, (∀ v ∈ items, motive v) → motive (.arr items))
    (obj : ∀ members, (∀ p ∈ members, motive p.2) → motive (.obj members)) (v : Json) :
    motive v := by
  apply @Json.rec motive (fun items => ∀ v ∈ items, motive v)
    (fun members => ∀ p ∈ members, motive p.2) (fun p => motive p.2)
  all_goals grind

/-! ## Reading -/

def isSpace (c : Char) : Bool := c = ' ' || c = '\t' || c = '\n' || c = '\r'

def skipSpace (t : List Char) : List Char := t.dropWhile isSpace

/-- A character that stands for itself in a string. -/
def Plain (c : Char) : Prop := ' ' ≤ c ∧ c ≠ '"' ∧ c ≠ '\\'

instance : DecidablePred Plain := fun _ => inferInstanceAs (Decidable (_ ∧ _ ∧ _))

/-- The characters with an escape of two characters. -/
def simpleEscape (e : Char) : Option Char :=
  if e = '"' ∨ e = '\\' ∨ e = '/' then some e
  else if e = 'b' then some '\x08'
  else if e = 'f' then some '\x0c'
  else if e = 'n' then some '\n'
  else if e = 'r' then some '\r'
  else if e = 't' then some '\t'
  else none

def hexDigit (c : Char) : Option ℕ :=
  if '0' ≤ c ∧ c ≤ '9' then some (c.toNat - '0'.toNat)
  else if 'a' ≤ c ∧ c ≤ 'f' then some (c.toNat - 'a'.toNat + 10)
  else if 'A' ≤ c ∧ c ≤ 'F' then some (c.toNat - 'A'.toNat + 10)
  else none

/-- The value of the four hexadecimal digits of an escape. -/
def readHex : List Char → Option (ℕ × List Char)
  | a :: b :: c :: d :: t => do
    let a ← hexDigit a
    let b ← hexDigit b
    let c ← hexDigit c
    let d ← hexDigit d
    some (((a * 16 + b) * 16 + c) * 16 + d, t)
  | _ => none

/-- The second half of a surrogate pair. -/
def readLow : List Char → Option (ℕ × List Char)
  | c :: d :: t =>
    if c = '\\' ∧ d = 'u' then do
      let (n, t) ← readHex t
      if 0xDC00 ≤ n ∧ n < 0xE000 then some (n, t) else none
    else none
  | _ => none

/-- The character of a hexadecimal escape; half a surrogate pair is no character. -/
def readUnicode (t : List Char) : Option (Char × List Char) := do
  let (n, t) ← readHex t
  if 0xD800 ≤ n ∧ n < 0xDC00 then
    let (m, t) ← readLow t
    some (Char.ofNat (0x10000 + (n - 0xD800) * 0x400 + (m - 0xDC00)), t)
  else if 0xDC00 ≤ n ∧ n < 0xE000 then none
  else some (Char.ofNat n, t)

/-- One character of a string. -/
def readChar : List Char → Option (Char × List Char)
  | [] => none
  | c :: t =>
    if Plain c then some (c, t)
    else if c = '\\' then
      match t with
      | [] => none
      | e :: t => if e = 'u' then readUnicode t else (simpleEscape e).map (·, t)
    else none

/-- The characters of a string up to the closing quote. -/
def readString : ℕ → List Char → Option (List Char × List Char)
  | 0, _ => none
  | n + 1, t =>
    if t.head? = some '"' then some ([], t.tail)
    else do
      let (c, t) ← readChar t
      let (s, t) ← readString n t
      some (c :: s, t)

def natOf (ds : List Char) : ℕ := Nat.ofDigitChars 10 ds 0

def signed (neg : Bool) (n : ℕ) : ℤ := if neg then -n else n

def readSign : List Char → Bool × List Char
  | [] => (false, [])
  | c :: t => if c = '-' then (true, t) else (false, c :: t)

def readFraction : List Char → Option (List Char × List Char)
  | [] => some ([], [])
  | c :: t =>
    if c = '.' then
      if t.takeWhile Char.isDigit = [] then none
      else some (t.takeWhile Char.isDigit, t.dropWhile Char.isDigit)
    else some ([], c :: t)

def readExponent : List Char → Option (ℤ × List Char)
  | [] => some (0, [])
  | c :: t =>
    if c = 'e' ∨ c = 'E' then
      let (neg, t) := if t.head? = some '+' then (false, t.tail) else readSign t
      if t.takeWhile Char.isDigit = [] then none
      else some (signed neg (natOf (t.takeWhile Char.isDigit)), t.dropWhile Char.isDigit)
    else some (0, c :: t)

def readNumber (t : List Char) : Option (Json × List Char) :=
  let (neg, t) := readSign t
  let ds := t.takeWhile Char.isDigit
  -- a number of more than one digit does not begin with a zero
  if ds = [] ∨ 1 < ds.length ∧ ds.head? = some '0' then none
  else do
    let (fs, t) ← readFraction (t.dropWhile Char.isDigit)
    let (e, t) ← readExponent t
    some (.num (signed neg (natOf (ds ++ fs))) (e - fs.length), t)

def readWord (w t : List Char) : Option (List Char) :=
  if w <+: t then some (t.drop w.length) else none

section Items

variable {α : Type} (close : Char) (item : List Char → Option (α × List Char))

/-- The items behind the first one. -/
def readMore : ℕ → List Char → Option (List α × List Char)
  | 0, _ => none
  | n + 1, t =>
    match skipSpace t with
    | [] => none
    | c :: t =>
      if c = close then some ([], t)
      else if c = ',' then do
        let (v, t) ← item t
        let (vs, t) ← readMore n t
        some (v :: vs, t)
      else none

/-- The items up to the closing bracket. -/
def readItems (n : ℕ) (t : List Char) : Option (List α × List Char) :=
  match skipSpace t with
  | [] => none
  | c :: t =>
    if c = close then some ([], t)
    else do
      let (v, t) ← item (c :: t)
      let (vs, t) ← readMore close item n t
      some (v :: vs, t)

end Items

/-- A member of an object: a string, a colon and a value. -/
def readMember (value : List Char → Option (Json × List Char)) (n : ℕ) (t : List Char) :
    Option ((List Char × Json) × List Char) :=
  match skipSpace t with
  | [] => none
  | c :: t =>
    if c = '"' then do
      let (k, t) ← readString n t
      match skipSpace t with
      | [] => none
      | c :: t =>
        if c = ':' then do
          let (v, t) ← value t
          some ((k, v), t)
        else none
    else none

/-- A value at the beginning of a text, and the text behind it. -/
def readValue : ℕ → List Char → Option (Json × List Char)
  | 0, _ => none
  | n + 1, t =>
    match skipSpace t with
    | [] => none
    | c :: t =>
      if c = '"' then (readString n t).map fun (s, t) => (.str s, t)
      else if c = '[' then (readItems ']' (readValue n) n t).map fun (vs, t) => (.arr vs, t)
      else if c = '{' then
        (readItems '}' (readMember (readValue n) n) n t).map fun (ms, t) => (.obj ms, t)
      else if c = 'n' then (readWord ['u', 'l', 'l'] t).map (.null, ·)
      else if c = 't' then (readWord ['r', 'u', 'e'] t).map (.bool true, ·)
      else if c = 'f' then (readWord ['a', 'l', 's', 'e'] t).map (.bool false, ·)
      else readNumber (c :: t)

/-- The value of a text, if the text is JSON. -/
def parse (t : List Char) : Option Json := do
  let (v, t) ← readValue (t.length + 1) t
  if skipSpace t = [] then some v else none

end JsonText
