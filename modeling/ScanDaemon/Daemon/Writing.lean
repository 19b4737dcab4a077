import Mathlib.Data.List.Infix
import ScanDaemon.Daemon.Responses

/-! # Writing a response

The status line, the headers and the body are written one after the other, and
each of them whatever became of the ones before. Behind a part that is cut off
the next one continues the stream at the wrong place.
-/

namespace ScanDaemon

namespace HttpServer

/-- What a call of `send` returns; `sent n` is `n + 1` bytes, or all that are left. -/
inductive Send
  | sent (n : ℕ)
  | zero
  | eintr
  | error
  deriving DecidableEq, Repr

/-- The bytes put on the socket and the returned value, `none` while the loop is running; and the
outcomes that the next calls have. -/
structure Written where
  bytes : List Char
  result : Option Bool
  rest : List Send
  deriving DecidableEq, Repr

/-- `write_no_sigpipe` -/
def writeNoSigpipe (data : List Char) : List Send → Written
  | [] => if data = [] then ⟨[], some true, []⟩ else ⟨[], none, []⟩
  | send :: sends =>
    if data = [] then ⟨[], some true, send :: sends⟩
    else match send with
      | .sent n =>
        let w := writeNoSigpipe (data.drop (n + 1)) sends
        { w with bytes := data.take (n + 1) ++ w.bytes }
      | .zero => ⟨[], some false, sends⟩
      | .eintr => writeNoSigpipe data sends
      | .error => ⟨[], some false, sends⟩

/-- The calls of `write_no_sigpipe`, with the variable `success`. -/
def writeParts (success : Bool) : List (List Char) → List Send → Written
  | [], sends => ⟨[], some success, sends⟩
  | part :: parts, sends =>
    let w := writeNoSigpipe part sends
    match w.result with
    | none => w
    | some b =>
      let w' := writeParts (success && b) parts w.rest
      { w' with bytes := w.bytes ++ w'.bytes }

def responseMsg (statusCode : ℤ) : String :=
  if statusCode = 200 then "OK"
  else if statusCode = 204 then "No Content"
  else if statusCode = 400 then "Bad Request"
  else if statusCode = 404 then "Not Found"
  else if statusCode = 409 then "Conflict"
  else if statusCode = 429 then "Server busy"
  else if statusCode = 500 then "Internal Server Error"
  else if statusCode = 503 then "Service Unavailable"
  else "Internal Server Error"

def startResponse (statusCode : ℤ) : List Char :=
  "HTTP/1.1 ".toList ++ toString statusCode ++ " ".toList ++ (responseMsg statusCode).toList ++
    "\r\n".toList

def header (contentType body : List Char) : List Char :=
  "Content-Type: ".toList ++ contentType ++ "\r\n".toList ++ "Content-Length: ".toList ++
    toString body.length ++ "\r\n".toList ++ "Connection: close\r\n\r\n".toList

/-- What is passed to `write_no_sigpipe`. -/
def responseParts (statusCode : ℤ) (contentType body : List Char) : List (List Char) :=
  [startResponse statusCode, header contentType body] ++ if body = [] then [] else [body]

/-- `write_response` -/
def writeResponse (statusCode : ℤ) (contentType body : List Char) (sends : List Send) : Written :=
  writeParts true (responseParts statusCode contentType body) sends

/-- The complete response. -/
def response (statusCode : ℤ) (contentType body : List Char) : List Char :=
  startResponse statusCode ++ header contentType body ++ body

/-- One after the other the parts are sent, up to one that fails: its last bytes `missing` stay
unsent, and the parts `later` are written with the outcomes `rest`. -/
inductive FailsAt :
    List (List Char) → List Send → List Char → List (List Char) → List Send → Prop
  | zero {part parts sends} (ne : part ≠ []) :
      FailsAt (part :: parts) (.zero :: sends) part parts sends
  | error {part parts sends} (ne : part ≠ []) :
      FailsAt (part :: parts) (.error :: sends) part parts sends
  | eintr {part parts sends missing later rest} (ne : part ≠ [])
      (h : FailsAt (part :: parts) sends missing later rest) :
      FailsAt (part :: parts) (.eintr :: sends) missing later rest
  | sent {part parts sends missing later rest n} (ne : part ≠ [])
      (h : FailsAt (part.drop (n + 1) :: parts) sends missing later rest) :
      FailsAt (part :: parts) (.sent n :: sends) missing later rest
  | next {parts sends missing later rest} (h : FailsAt parts sends missing later rest) :
      FailsAt ([] :: parts) sends missing later rest

/-- The next `k` writes put nothing on the socket. -/
def Silent : ℕ → List Send → Prop
  | 0, _ => True
  | _ + 1, [] => True
  | k + 1, .eintr :: sends => Silent (k + 1) sends
  | _ + 1, .sent _ :: _ => False
  | k + 1, .zero :: sends => Silent k sends
  | k + 1, .error :: sends => Silent k sends

/-- How many bytes of a part of the given length the outcomes let through. -/
def passes (length : ℕ) : List Send → ℕ
  | [] => 0
  | send :: sends =>
    if length = 0 then 0
    else match send with
      | .sent n => min (n + 1) length + passes (length - (n + 1)) sends
      | .eintr => passes length sends
      | .zero | .error => 0

/-- The outcomes that a part of the given length leaves for the next one. -/
def leaves (length : ℕ) : List Send → List Send
  | [] => []
  | send :: sends =>
    if length = 0 then send :: sends
    else match send with
      | .sent n => leaves (length - (n + 1)) sends
      | .eintr => leaves length sends
      | .zero | .error => sends

/-- The beginnings of the parts that the outcomes let through. -/
def beginnings : List (List Char) → List Send → List Char
  | [], _ => []
  | part :: parts, sends =>
    part.take (passes part.length sends) ++ beginnings parts (leaves part.length sends)

/-- By chance the beginnings of the later parts are what comes next. -/
def Coincides (missing : List Char) (later : List (List Char)) (rest : List Send) : Prop :=
  beginnings later rest ≠ [] ∧ beginnings later rest <+: missing ++ later.flatten

variable {data part missing : List Char} {parts later : List (List Char)} {sends rest : List Send}
  {send : Send} {success : Bool} {n k : ℕ}

/-! ## One part -/

theorem writeNoSigpipe_nil : writeNoSigpipe [] sends = ⟨[], some true, sends⟩ := by
  cases sends <;> rfl

theorem writeNoSigpipe_sent (ne : data ≠ []) : writeNoSigpipe data (.sent n :: sends) =
    { writeNoSigpipe (data.drop (n + 1)) sends with
      bytes := data.take (n + 1) ++ (writeNoSigpipe (data.drop (n + 1)) sends).bytes } :=
  if_neg ne

theorem writeNoSigpipe_eintr (ne : data ≠ []) :
    writeNoSigpipe data (.eintr :: sends) = writeNoSigpipe data sends :=
  if_neg ne

theorem writeNoSigpipe_fail (ne : data ≠ []) (h : send = .zero ∨ send = .error) :
    writeNoSigpipe data (send :: sends) = ⟨[], some false, sends⟩ := by
  rcases h with rfl | rfl
  · exact if_neg ne
  · exact if_neg ne

/-- A beginning of the part is sent, and `true` is returned when it is the whole part. -/
theorem writeNoSigpipe_spec (data : List Char) (sends : List Send) :
    (writeNoSigpipe data sends).bytes <+: data ∧
      ((writeNoSigpipe data sends).result = some true ↔
        (writeNoSigpipe data sends).bytes = data) := by
  induction sends generalizing data with
  | nil =>
    unfold writeNoSigpipe
    split_ifs with h
    · exact ⟨List.nil_prefix, by simp [h]⟩
    · exact ⟨List.nil_prefix, by simpa using Ne.symm h⟩
  | cons send sends ih =>
    by_cases ne : data = []
    · subst ne
      rw [writeNoSigpipe_nil]
      exact ⟨List.nil_prefix, by simp⟩
    have hfail (h : send = .zero ∨ send = .error) :
        (writeNoSigpipe data (send :: sends)).bytes <+: data ∧
          ((writeNoSigpipe data (send :: sends)).result = some true ↔
            (writeNoSigpipe data (send :: sends)).bytes = data) := by
      rw [writeNoSigpipe_fail ne h]
      exact ⟨List.nil_prefix, by simpa using Ne.symm ne⟩
    cases send with
    | sent n =>
      obtain ⟨hpre, hres⟩ := ih (data.drop (n + 1))
      have hdata : data.take (n + 1) ++ data.drop (n + 1) = data := List.take_append_drop _ _
      rw [writeNoSigpipe_sent ne]
      constructor
      · calc
          _ <+: data.take (n + 1) ++ data.drop (n + 1) :=
            (List.prefix_append_right_inj _).mpr hpre
          _ = data := hdata
      · calc
          _ ↔ (writeNoSigpipe (data.drop (n + 1)) sends).bytes = data.drop (n + 1) := hres
          _ ↔ _ = data.take (n + 1) ++ data.drop (n + 1) := (List.append_right_inj _).symm
          _ ↔ _ = data := by rw [hdata]
    | zero => exact hfail (.inl rfl)
    | error => exact hfail (.inr rfl)
    | eintr =>
      rw [writeNoSigpipe_eintr ne]
      exact ih data

theorem passes_zero : passes 0 sends = 0 := by
  cases sends <;> rfl

theorem leaves_zero : leaves 0 sends = sends := by
  cases sends <;> rfl

theorem take_take_add (n k : ℕ) (data : List Char) :
    data.take (n + 1) ++ (data.drop (n + 1)).take k = data.take (min (n + 1) data.length + k) := by
  rw [← List.take_add]
  rcases Nat.le_total (n + 1) data.length with h | h
  · rw [min_eq_left h]
  · rw [min_eq_right h, List.take_of_length_le (by omega), List.take_of_length_le (by omega)]

/-- The outcomes alone decide how much of a part is sent, and what is left of them. -/
theorem writeNoSigpipe_passes (data : List Char) (sends : List Send) :
    (writeNoSigpipe data sends).bytes = data.take (passes data.length sends) ∧
      (writeNoSigpipe data sends).rest = leaves data.length sends := by
  induction sends generalizing data with
  | nil =>
    unfold writeNoSigpipe
    split_ifs <;> exact ⟨rfl, rfl⟩
  | cons send sends ih =>
    by_cases ne : data = []
    · subst ne
      rw [writeNoSigpipe_nil, List.length_nil, passes_zero, leaves_zero]
      exact ⟨rfl, rfl⟩
    have hlength : data.length ≠ 0 := fun h => ne (List.eq_nil_of_length_eq_zero h)
    simp only [passes, leaves, if_neg hlength]
    cases send with
    | sent n =>
      obtain ⟨hbytes, hrest⟩ := ih (data.drop (n + 1))
      rw [List.length_drop] at hbytes hrest
      rw [writeNoSigpipe_sent ne]
      refine ⟨?_, hrest⟩
      dsimp only
      rw [hbytes, take_take_add]
    | eintr =>
      rw [writeNoSigpipe_eintr ne]
      exact ih data
    | zero | error =>
      rw [writeNoSigpipe_fail ne (by simp)]
      exact ⟨rfl, rfl⟩

/-- The loop goes on while there are outcomes. -/
theorem writeNoSigpipe_running (h : (writeNoSigpipe data sends).result = none) :
    (writeNoSigpipe data sends).rest = [] := by
  induction sends generalizing data with
  | nil =>
    unfold writeNoSigpipe
    split_ifs <;> rfl
  | cons send sends ih =>
    by_cases ne : data = []
    · subst ne
      rw [writeNoSigpipe_nil] at h
      cases h
    cases send with
    | sent n =>
      rw [writeNoSigpipe_sent ne] at h ⊢
      exact ih h
    | eintr =>
      rw [writeNoSigpipe_eintr ne] at h ⊢
      exact ih h
    | zero | error =>
      rw [writeNoSigpipe_fail ne (by simp)] at h
      cases h

theorem beginnings_nil (parts : List (List Char)) : beginnings parts [] = [] := by
  induction parts with
  | nil => rfl
  | cons part parts ih => exact ih

/-! ## All parts -/

/-- What the write of a part makes of the later ones. -/
theorem writeParts_cons {w : Written} (h : writeNoSigpipe part sends = w) :
    writeParts success (part :: parts) sends = match w.result with
      | none => w
      | some b => { writeParts (success && b) parts w.rest with
          bytes := w.bytes ++ (writeParts (success && b) parts w.rest).bytes } := by
  rw [writeParts, h]

/-- The outcomes alone decide which beginnings of the parts are sent. -/
theorem writeParts_bytes : (writeParts success parts sends).bytes = beginnings parts sends := by
  induction parts generalizing success sends with
  | nil => rfl
  | cons part parts ih =>
    obtain ⟨hbytes, hrest⟩ := writeNoSigpipe_passes part sends
    rw [writeParts_cons rfl, beginnings, ← hbytes, ← hrest]
    cases hw : (writeNoSigpipe part sends).result with
    | none => rw [writeNoSigpipe_running hw, beginnings_nil, List.append_nil]
    | some b => exact congrArg ((writeNoSigpipe part sends).bytes ++ ·) ih

/-- Everything is sent exactly when `true` is returned. -/
theorem writeParts_result : (writeParts success parts sends).bytes.length ≤ parts.flatten.length ∧
    ((writeParts success parts sends).bytes.length = parts.flatten.length → success = true →
      (writeParts success parts sends).result = some true) ∧
    ((writeParts success parts sends).result = some true →
      success = true ∧ (writeParts success parts sends).bytes = parts.flatten) := by
  induction parts generalizing success sends with
  | nil => simp [writeParts]
  | cons part parts ih =>
    obtain ⟨hpre, hres⟩ := writeNoSigpipe_spec part sends
    have hle := hpre.length_le
    have hwhole (h : (writeNoSigpipe part sends).bytes.length = part.length) :
        (writeNoSigpipe part sends).result = some true := hres.mpr (hpre.eq_of_length h)
    rw [writeParts_cons rfl, List.flatten_cons, List.length_append]
    cases hw : (writeNoSigpipe part sends).result with
    | none =>
      rw [hw] at hwhole
      have hlt := hle.lt_of_ne fun h => by cases hwhole h
      refine ⟨by dsimp only; omega, fun h => by dsimp only at h; omega, fun h => ?_⟩
      rw [hw] at h
      cases h
    | some b =>
      obtain ⟨hle', hall, htrue⟩ := @ih (writeNoSigpipe part sends).rest (success && b)
      dsimp only
      rw [List.length_append]
      refine ⟨by omega, fun h hs => ?_, fun h => ?_⟩
      · have hb := hwhole (by omega)
        rw [hw] at hb
        obtain rfl := Option.some.inj hb
        exact hall (by omega) (by rw [hs]; rfl)
      · obtain ⟨hboth, hbytes⟩ := htrue h
        obtain ⟨hs, rfl⟩ := Bool.and_eq_true_iff.mp hboth
        exact ⟨hs, by rw [hres.mp hw, hbytes]⟩

/-! ## Failures -/

theorem beginnings_empty : beginnings ([] :: parts) sends = beginnings parts sends := by
  rw [beginnings, List.length_nil, leaves_zero, List.take_nil, List.nil_append]

theorem beginnings_sent (ne : part ≠ []) : beginnings (part :: parts) (.sent n :: sends) =
    part.take (n + 1) ++ beginnings (part.drop (n + 1) :: parts) sends := by
  have hlength : part.length ≠ 0 := fun h => ne (List.eq_nil_of_length_eq_zero h)
  simp only [beginnings, passes, leaves, if_neg hlength, List.length_drop]
  rw [← take_take_add, List.append_assoc]

theorem beginnings_eintr (ne : part ≠ []) :
    beginnings (part :: parts) (.eintr :: sends) = beginnings (part :: parts) sends := by
  have hlength : part.length ≠ 0 := fun h => ne (List.eq_nil_of_length_eq_zero h)
  simp only [beginnings, passes, leaves, if_neg hlength]

theorem beginnings_fail (ne : part ≠ []) (h : send = .zero ∨ send = .error) :
    beginnings (part :: parts) (send :: sends) = beginnings parts sends := by
  have hlength : part.length ≠ 0 := fun h => ne (List.eq_nil_of_length_eq_zero h)
  rcases h with rfl | rfl <;> simp [beginnings, passes, leaves, hlength]

/-- The later parts continue behind the bytes that were sent before the failure. -/
theorem FailsAt.beginnings (h : FailsAt parts sends missing later rest) :
    ∃ done, parts.flatten = done ++ (missing ++ later.flatten) ∧
      beginnings parts sends = done ++ HttpServer.beginnings later rest := by
  induction h with
  | zero ne => exact ⟨[], rfl, beginnings_fail ne (.inl rfl)⟩
  | error ne => exact ⟨[], rfl, beginnings_fail ne (.inr rfl)⟩
  | eintr ne _ ih =>
    rw [beginnings_eintr ne]
    exact ih
  | @sent part parts _ _ _ _ n ne _ ih =>
    obtain ⟨done, hflat, hbytes⟩ := ih
    refine ⟨part.take (n + 1) ++ done, ?_, ?_⟩
    · rw [List.append_assoc, ← hflat, List.flatten_cons, List.flatten_cons, ← List.append_assoc,
        List.take_append_drop]
    · rw [beginnings_sent ne, hbytes, List.append_assoc]
  | next _ ih =>
    rw [beginnings_empty]
    exact ih

theorem FailsAt.later_subset (h : FailsAt parts sends missing later rest) :
    later ⊆ parts.tail := by
  induction h with
  | zero | error => exact List.Subset.refl _
  | eintr _ _ ih => exact ih
  | sent _ _ ih => exact ih
  | next _ ih => exact List.Subset.trans ih (List.tail_subset _)

/-- Without a failure what is sent is a beginning of the whole. -/
theorem failsAt_or_prefix (parts : List (List Char)) (sends : List Send) :
    (∃ missing later rest, FailsAt parts sends missing later rest) ∨
      beginnings parts sends <+: parts.flatten := by
  induction sends generalizing parts with
  | nil => exact .inr (beginnings_nil parts ▸ List.nil_prefix)
  | cons send sends ihs =>
    induction parts with
    | nil => exact .inr List.nil_prefix
    | cons part parts ih =>
      by_cases ne : part = []
      · subst ne
        rw [beginnings_empty]
        exact ih.imp_left fun ⟨missing, later, rest, h⟩ => ⟨missing, later, rest, h.next⟩
      cases send with
      | zero => exact .inl ⟨part, parts, sends, .zero ne⟩
      | error => exact .inl ⟨part, parts, sends, .error ne⟩
      | eintr =>
        rw [beginnings_eintr ne]
        exact (ihs (part :: parts)).imp_left fun ⟨missing, later, rest, h⟩ =>
          ⟨missing, later, rest, h.eintr ne⟩
      | sent n =>
        rw [beginnings_sent ne, List.flatten_cons]
        refine (ihs (part.drop (n + 1) :: parts)).imp
          (fun ⟨missing, later, rest, h⟩ => ⟨missing, later, rest, h.sent ne⟩) fun h => ?_
        have hpart := List.take_append_drop (n + 1) part
        conv_rhs => rw [← hpart, List.append_assoc]
        exact (List.prefix_append_right_inj _).mpr h

theorem silent_iff (hne : ∀ part ∈ parts, part ≠ []) :
    Silent parts.length sends ↔ beginnings parts sends = [] := by
  induction sends generalizing parts with
  | nil =>
    rw [beginnings_nil]
    cases parts <;> exact iff_of_true trivial rfl
  | cons send sends ih =>
    cases parts with
    | nil => exact iff_of_true trivial rfl
    | cons part parts =>
      have ne := hne part List.mem_cons_self
      have hne' : ∀ p ∈ parts, p ≠ [] := fun p hp => hne p (List.mem_cons_of_mem _ hp)
      cases send with
      | sent n =>
        rw [beginnings_sent ne]
        refine iff_of_false id fun h => ne ?_
        simpa using (List.append_eq_nil_iff.mp h).1
      | zero =>
        rw [beginnings_fail ne (.inl rfl)]
        exact ih hne'
      | error =>
        rw [beginnings_fail ne (.inr rfl)]
        exact ih hne'
      | eintr =>
        rw [beginnings_eintr ne]
        exact ih hne

/-- What is sent is a beginning of the whole exactly when behind a failure nothing is sent, or what
comes next by chance. -/
theorem writeParts_prefix_iff (hne : ∀ part ∈ parts, part ≠ []) :
    (writeParts success parts sends).bytes <+: parts.flatten ↔
      ∀ missing later rest, FailsAt parts sends missing later rest →
        Silent later.length rest ∨ Coincides missing later rest := by
  have hlater {missing later rest} (h : FailsAt parts sends missing later rest) :
      ∀ part ∈ later, part ≠ [] := fun part hp =>
    hne part (List.mem_of_mem_tail (h.later_subset hp))
  rw [writeParts_bytes]
  constructor
  · intro hpre missing later rest h
    obtain ⟨done, hflat, hbytes⟩ := h.beginnings
    rw [hflat, hbytes, List.prefix_append_right_inj] at hpre
    rw [silent_iff (hlater h)]
    exact (em _).imp_right fun hsends => ⟨hsends, hpre⟩
  · intro hfails
    rcases failsAt_or_prefix parts sends with ⟨missing, later, rest, h⟩ | h
    · obtain ⟨done, hflat, hbytes⟩ := h.beginnings
      rw [hflat, hbytes, List.prefix_append_right_inj]
      rcases hfails missing later rest h with hsilent | hcoincides
      · rw [(silent_iff (hlater h)).mp hsilent]
        exact List.nil_prefix
      · exact hcoincides.2
    · exact h

/-! ## The response -/

theorem responseParts_flatten (statusCode : ℤ) (contentType body : List Char) :
    (responseParts statusCode contentType body).flatten = response statusCode contentType body := by
  unfold responseParts response
  split_ifs with h
  · simp [h]
  · simp

theorem responseParts_ne_nil {statusCode : ℤ} {contentType body : List Char} :
    ∀ part ∈ responseParts statusCode contentType body, part ≠ [] := by
  intro part hp
  rcases List.mem_append.mp hp with hp | hp
  · simp only [List.mem_cons, List.not_mem_nil, or_false] at hp
    rcases hp with rfl | rfl
    · exact List.append_ne_nil_of_right_ne_nil _ (by decide)
    · exact List.append_ne_nil_of_right_ne_nil _ (by decide)
  · split_ifs at hp with hbody
    · cases hp
    · rw [List.mem_singleton.mp hp]
      exact hbody

/-- `write_response` returns `true` exactly when it has sent the complete response. What it sends is
a beginning of the response exactly when no part that is written behind one that failed puts a byte
on the socket, or the beginnings of these that the outcomes let through come next by chance. -/
theorem writeResponse_iff (statusCode : ℤ) (contentType body : List Char) (sends : List Send) :
    ((writeResponse statusCode contentType body sends).result = some true ↔
      (writeResponse statusCode contentType body sends).bytes =
        response statusCode contentType body) ∧
    ((writeResponse statusCode contentType body sends).bytes <+:
        response statusCode contentType body ↔
      ∀ missing later rest,
        FailsAt (responseParts statusCode contentType body) sends missing later rest →
          Silent later.length rest ∨ Coincides missing later rest) := by
  obtain ⟨-, hall, htrue⟩ := @writeParts_result
    (responseParts statusCode contentType body) sends true
  rw [← responseParts_flatten]
  exact ⟨⟨fun h => (htrue h).2, fun h => hall (congrArg List.length h) rfl⟩,
    writeParts_prefix_iff responseParts_ne_nil⟩

/-- When the status line cannot be sent, the headers are. -/
theorem writeResponse_headless :
    let w := writeResponse 200 "text/html".toList [] [.error, .sent 100]
    w.bytes = "Content-Type: text/html\r\nContent-Length: 0\r\nConnection: close\r\n\r\n".toList ∧
      ¬w.bytes <+: response 200 "text/html".toList [] ∧ w.result = some false := by
  decide +kernel

end HttpServer

end ScanDaemon
