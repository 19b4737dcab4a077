import ScanDaemon.Daemon.Writing
import ScanDaemon.Library.Http

/-! # What a client reads

What `write_response` sends is a message that says how long it is. A client
reads it back when all of it has been sent; when the connection has failed on
the way and stays so, the client reads nothing.
-/

namespace ScanDaemon

namespace HttpServer

open HttpText

/-- The message that `write_response` sends. -/
def message (statusCode : ℕ) (contentType body : List Char) : Message where
  statusCode := statusCode
  reason := (responseMsg statusCode).toList
  fields := [("Content-Type".toList, contentType), (lengthField, decimal body.length),
    ("Connection".toList, "close".toList)]
  body := body

/-- A connection on which a call of `send` has failed sends nothing more. -/
def StaysFailed (sends : List Send) : Prop :=
  sends.Pairwise fun s s' => s = .zero ∨ s = .error → ∀ n, s' ≠ .sent n

instance : DecidablePred StaysFailed := fun sends => by
  have hdec : DecidableRel fun s s' : Send => s = .zero ∨ s = .error → ∀ n, s' ≠ .sent n := by
    intro s s'
    cases s' with
    | sent n =>
      exact decidable_of_iff (¬(s = .zero ∨ s = .error))
        ⟨fun hn h => absurd h hn, fun h hs => h hs n rfl⟩
    | zero | eintr | error => exact isTrue fun _ _ => nofun
  exact List.instDecidablePairwise sends

variable {statusCode : ℕ} {contentType body missing : List Char} {parts later : List (List Char)}
  {sends rest : List Send} {k : ℕ}

theorem toString_natCast (n : ℕ) : toString (n : ℤ) = decimal n := by
  have hn : ¬(n : ℤ) < 0 := not_lt.mpr (Int.natCast_nonneg n)
  rw [toString, JsonText.intText, if_neg hn, Int.natAbs_natCast]
  rfl

theorem crlf_eq : "\r\n".toList = crlf := by decide

theorem statusLine_message (statusCode : ℕ) (contentType body : List Char) :
    (message statusCode contentType body).statusLine ++ crlf = startResponse statusCode := by
  have hversion : "HTTP/1.1 ".toList = version := rfl
  unfold startResponse
  rw [toString_natCast, hversion, crlf_eq]
  simp [message, Message.statusLine]

theorem fieldLines_message (statusCode : ℕ) (contentType body : List Char) :
    (message statusCode contentType body).fieldLines.flatMap (· ++ crlf) ++ crlf =
      header contentType body := by
  have htype : "Content-Type: ".toList = "Content-Type".toList ++ [':', ' '] := by decide +kernel
  have hlength : "Content-Length: ".toList = lengthField ++ [':', ' '] := by decide +kernel
  have hend : "Connection: close\r\n\r\n".toList =
      "Connection".toList ++ [':', ' '] ++ "close".toList ++ crlf ++ crlf := by decide +kernel
  unfold header
  rw [toString_natCast, htype, hlength, hend, crlf_eq]
  simp [message, Message.fieldLines]

theorem message_text (statusCode : ℕ) (contentType body : List Char) :
    (message statusCode contentType body).text = response statusCode contentType body := by
  have hbody : (message statusCode contentType body).body = body := rfl
  have hresponse : response statusCode contentType body =
      startResponse statusCode ++ header contentType body ++ body := rfl
  rw [hresponse, ← statusLine_message statusCode contentType body,
    ← fieldLines_message statusCode contentType body, Message.text, hbody]
  simp only [List.flatMap_cons, List.append_assoc]

theorem message_wellFormed (hcode : 100 ≤ statusCode ∧ statusCode < 1000)
    (htype : '\r' ∉ contentType) : (message statusCode contentType body).WellFormed where
  code := by
    have hle : (Nat.toDigits 10 statusCode).length ≤ 3 :=
      (Nat.length_toDigits_le_iff (by decide) (by decide)).mpr hcode.2
    have hge : ¬(Nat.toDigits 10 statusCode).length ≤ 2 := by
      rw [Nat.length_toDigits_le_iff (by decide) (by decide)]
      omega
    change (Nat.toDigits 10 statusCode).length = 3
    omega
  reason := by
    change '\r' ∉ (responseMsg statusCode).toList
    unfold responseMsg
    split_ifs <;> decide
  names := by
    intro field hf
    have hname : field.1 ∈ ["Content-Type".toList, lengthField, "Connection".toList] := by
      have hmem := List.mem_map_of_mem (f := Prod.fst) hf
      exact hmem
    have hplain : ∀ name ∈ ["Content-Type".toList, lengthField, "Connection".toList],
        ':' ∉ name ∧ '\r' ∉ name := by decide
    exact hplain field.1 hname
  values := by
    intro field hf
    simp only [message, List.mem_cons, List.not_mem_nil, or_false] at hf
    rcases hf with rfl | rfl | rfl
    · exact htype
    · intro hc
      exact absurd (Nat.isDigit_of_mem_toDigits (by decide) (by decide) hc) (by decide)
    · decide
  length := by
    have hname : (lengthField == "Content-Type".toList) = false := by decide
    simp only [message, List.lookup_cons, hname, beq_self_eq_true]

theorem silent_of_forall (h : ∀ s ∈ sends, ∀ n, s ≠ .sent n) : Silent k sends := by
  induction sends generalizing k with
  | nil => cases k <;> trivial
  | cons send sends ih =>
    have hsends := fun k => @ih k fun s hs => h s (List.mem_cons_of_mem _ hs)
    cases k with
    | zero => trivial
    | succ k =>
      cases send with
      | sent n => exact absurd rfl (h (.sent n) List.mem_cons_self n)
      | zero | error => exact hsends k
      | eintr => exact hsends (k + 1)

/-- Behind a failure nothing is sent. -/
theorem FailsAt.silent (h : FailsAt parts sends missing later rest) (hstays : StaysFailed sends) :
    Silent later.length rest := by
  induction h with
  | zero => exact silent_of_forall fun s hs => (List.pairwise_cons.mp hstays).1 s hs (.inl rfl)
  | error => exact silent_of_forall fun s hs => (List.pairwise_cons.mp hstays).1 s hs (.inr rfl)
  | eintr _ _ ih => exact ih (List.pairwise_cons.mp hstays).2
  | sent _ _ ih => exact ih (List.pairwise_cons.mp hstays).2
  | next _ ih => exact ih hstays

theorem writeResponse_sent :
    (writeResponse statusCode contentType body sends).result = some true ↔
      (writeResponse statusCode contentType body sends).bytes =
        response statusCode contentType body := by
  obtain ⟨-, hall, htrue⟩ := @writeParts_result
    (responseParts statusCode contentType body) sends true
  rw [← responseParts_flatten]
  exact ⟨fun h => (htrue h).2, fun h => hall (congrArg List.length h) rfl⟩

/-- A response that has been sent is read back. -/
theorem readMessage_response (hcode : 100 ≤ statusCode ∧ statusCode < 1000)
    (htype : '\r' ∉ contentType) : readMessage (response statusCode contentType body) =
      some (message statusCode contentType body, []) := by
  rw [← message_text, ← List.append_nil (message statusCode contentType body).text]
  exact readMessage_text (message_wellFormed hcode htype)

/-- On a connection that stays failed once it has failed, a client reads a message exactly if
`write_response` returns `true`; and what it reads is the response. -/
theorem response_framed (statusCode : ℕ) (contentType body : List Char) (sends : List Send)
    (hcode : 100 ≤ statusCode ∧ statusCode < 1000) (htype : '\r' ∉ contentType)
    (hstays : StaysFailed sends) :
    let w := writeResponse statusCode contentType body sends
    (w.result = some true ↔ (readMessage w.bytes).isSome) ∧
      ∀ m rest, readMessage w.bytes = some (m, rest) →
        m = message statusCode contentType body ∧ rest = [] := by
  intro w
  have hwell : (message statusCode contentType body).WellFormed := message_wellFormed hcode htype
  have hbeginning : w.bytes <+: (message statusCode contentType body).text := by
    rw [message_text, ← responseParts_flatten]
    exact (writeParts_prefix_iff responseParts_ne_nil).mpr fun missing later rest h =>
      .inl (h.silent hstays)
  refine ⟨⟨fun h => ?_, fun h => ?_⟩, fun m rest h => (whole_of_readMessage hwell hbeginning h).2⟩
  · rw [writeResponse_sent.mp h, readMessage_response hcode htype]
    rfl
  · obtain ⟨⟨m, rest⟩, hread⟩ := Option.isSome_iff_exists.mp h
    rw [writeResponse_sent, ← message_text]
    exact (whole_of_readMessage hwell hbeginning hread).1

/-- A connection that fails inside the body. -/
theorem response_framed_cut :
    let w := writeResponse 200 "text/html".toList "abc".toList
      [.sent 100, .eintr, .sent 100, .sent 1, .error]
    w.result = some false ∧ readMessage w.bytes = none := by
  intro w
  have hstays : StaysFailed [.sent 100, .eintr, .sent 100, .sent 1, .error] := by decide
  have hresult : w.result = some false := by decide +kernel
  have hread : w.result = some true ↔ (readMessage w.bytes).isSome :=
    (response_framed 200 "text/html".toList "abc".toList _ (by decide) (by decide) hstays).1
  refine ⟨hresult, ?_⟩
  rw [← Option.not_isSome_iff_eq_none, ← hread, hresult]
  decide

end HttpServer

end ScanDaemon
