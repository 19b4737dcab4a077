import Mathlib
import ScanDaemon.Common.Types

/-! # Reading a request

`read_request` reads from the connection once and parses what has arrived; the
end of the buffer ends the path. The request is the one of the whole text unless
the first read ends inside the path.
-/

namespace ScanDaemon

namespace HttpServer

/-- A request that `read_request` has accepted, so neither part is empty. -/
structure RequestContent where
  method : List Char
  path : Path
  deriving DecidableEq, Repr

/-- `LIBHTTP_REQUEST_MAX_SIZE` -/
def requestMaxSize : ℕ := 8192

/-- The loop that collects the letters `A` to `Z` up to the first space. -/
def requestMethod : List Char → List Char
  | [] => []
  | c :: line =>
    if c.isUpper then c :: requestMethod line
    else if c = ' ' then []
    else requestMethod line

/-- The characters that do not end the path. -/
def isPathChar (c : Char) : Bool := c ≠ '\x00' && c ≠ ' ' && c ≠ '\n' && c ≠ '\r'

/-- What `read_request` makes of the bytes in `read_buf`; `none` is the empty content. -/
def parseRequest (buf : List Char) : Option RequestContent :=
  -- the line is a C string, so it ends at the first null byte
  let reqLine := buf.takeWhile (· ≠ '\x00')
  let method := requestMethod reqLine
  if method.length = 0 then none
  else if reqLine[method.length]? ≠ some ' ' then none
  else
    let path := (reqLine.drop (method.length + 1)).takeWhile isPathChar
    if path.length = 0 then none else some ⟨method, path⟩

/-- `read_request` on a connection whose reads return the given pieces. -/
def readRequest : List (List Char) → Option RequestContent
  | [] => none
  | piece :: _ => if piece.length < 1 then none else parseRequest piece

/-- The request that `handle_request` gives to `router`; `none` is answered with 400. -/
def handleRequest (reads : List (List Char)) : Option RequestContent :=
  (readRequest reads).filter fun r => r.path.head? = some '/'

/-- The pieces in which the transport delivers a text to reads into `read_buf`. -/
structure Delivers (text : List Char) (reads : List (List Char)) : Prop where
  flatten_eq : reads.flatten = text
  ne_nil : ∀ piece ∈ reads, piece ≠ []
  length_le : ∀ piece ∈ reads, piece.length ≤ requestMaxSize - 1

/-- The request handled is the one of the whole text. -/
structure HandlesWhole (text : List Char) (reads : List (List Char)) : Prop where
  read : readRequest reads = none ∨ readRequest reads = parseRequest text
  handled : ∀ r, handleRequest reads = some r → parseRequest text = some r
  not_cut : ∀ r r', readRequest reads = some r → parseRequest text = some r' →
    r.path <+: r'.path → r.path = r'.path

/-- A buffer begins with a request: a method, a space, and a path that the rest does not
continue. -/
structure RequestLine (r : RequestContent) (buf rest : List Char) : Prop where
  eq : buf = r.method ++ ' ' :: (r.path ++ rest)
  method_ne : r.method ≠ []
  method_upper : ∀ c ∈ r.method, c.isUpper = true
  path_ne : r.path ≠ []
  path_chars : ∀ c ∈ r.path, isPathChar c = true
  rest_ends : ∀ c ∈ rest.head?, isPathChar c = false

/-- The text begins with letters `A` to `Z`, one space, and a part of a path. -/
structure BeginsWith (text method path : List Char) : Prop where
  begins : method ++ ' ' :: path <+: text
  method_ne : method ≠ []
  method_upper : ∀ c ∈ method, 'A' ≤ c ∧ c ≤ 'Z'
  path_ne : path ≠ []
  path_chars : ∀ c ∈ path, c ≠ ' ' ∧ c ≠ '\r' ∧ c ≠ '\n'

variable {r r' : RequestContent} {l buf text rest first tail m p : List Char}
  {reads : List (List Char)} {c : Char}

theorem requestMethod_upper : ∀ c ∈ requestMethod l, c.isUpper = true := by
  induction l with
  | nil => simp [requestMethod]
  | cons d l ih =>
    unfold requestMethod
    split
    · rintro c (_ | ⟨_, hc⟩)
      · assumption
      · exact ih c hc
    · split
      · simp
      · exact ih

/-- There is no space among as many characters as the method has letters. -/
theorem requestMethod_no_space {i : ℕ} (h : i < (requestMethod l).length) :
    l[i]? ≠ some ' ' := by
  induction l generalizing i with
  | nil => simp
  | cons d l ih =>
    unfold requestMethod at h
    split at h
    next hd =>
      cases i with
      | zero =>
        rw [List.getElem?_cons_zero, Ne, Option.some.injEq]
        rintro rfl
        exact absurd hd (by decide)
      | succ i => exact ih (by simpa using h)
    next =>
      split at h
      · simp at h
      next hd =>
        cases i with
        | zero => simpa using hd
        | succ i => exact ih (Nat.lt_of_succ_lt h)

/-- A space right behind as many characters means that the letters are the beginning of the line. -/
theorem requestMethod_prefix (h : l[(requestMethod l).length]? = some ' ') :
    l = requestMethod l ++ ' ' :: l.drop ((requestMethod l).length + 1) := by
  induction l with
  | nil => simp at h
  | cons d l ih =>
    unfold requestMethod at h ⊢
    split at h
    next hd =>
      rw [if_pos hd]
      simpa using ih (by simpa using h)
    next hd =>
      rw [if_neg hd]
      split at h
      next hs => simp [hs]
      next hs =>
        cases hm : (requestMethod l).length with
        | zero => simp [hm, hs] at h
        | succ k =>
          rw [hm, List.getElem?_cons_succ] at h
          exact absurd h (requestMethod_no_space (by omega))

theorem requestMethod_append (hm : ∀ c ∈ m, c.isUpper = true) :
    requestMethod (m ++ ' ' :: l) = m := by
  induction m with
  | nil => rfl
  | cons d m ih =>
    have hd := hm d List.mem_cons_self
    simp [requestMethod, hd, ih fun c hc => hm c (List.mem_cons_of_mem _ hc)]

theorem isPathChar_ne_null (h : isPathChar c = true) : c ≠ '\x00' := by
  rintro rfl
  exact absurd h (by decide)

theorem isUpper_ne_null (h : c.isUpper = true) : c ≠ '\x00' := by
  rintro rfl
  exact absurd h (by decide)

/-- What follows the longest run of path characters does not continue it. -/
theorem head_dropWhile {q : Char → Bool} (h : c ∈ (l.dropWhile q).head?) : q c = false := by
  have := List.head?_dropWhile_not q l
  grind

theorem takeWhile_append_of_ends {q : Char → Bool} (hp : ∀ c ∈ p, q c = true)
    (hrest : ∀ c ∈ rest.head?, q c = false) : (p ++ rest).takeWhile q = p := by
  rw [List.takeWhile_append_of_pos hp]
  cases rest with
  | nil => simp
  | cons d rest => simp [hrest d rfl]

theorem isUpper_iff : c.isUpper = true ↔ 'A' ≤ c ∧ c ≤ 'Z' := by
  simp [Char.isUpper, Char.le_def]

/-- The longest run of path characters in a C string is not continued behind it. -/
theorem ends_dropWhile (hc : c ∈ (l.dropWhile isPathChar ++ buf.dropWhile (· ≠ '\x00')).head?) :
    isPathChar c = false := by
  cases hrun : l.dropWhile isPathChar with
  | nil =>
    rw [hrun, List.nil_append] at hc
    obtain rfl : c = '\x00' := by simpa using head_dropWhile hc
    rfl
  | cons d after =>
    rw [hrun] at hc
    exact head_dropWhile (l := l) (by simpa [hrun] using hc)

/-- A buffer that the parser accepts begins with the request that it returns. -/
theorem requestLine_of_parseRequest (h : parseRequest buf = some r) :
    ∃ rest, RequestLine r buf rest := by
  unfold parseRequest at h
  extract_lets l method path at h
  split at h; · exact absurd h nofun
  next hmethod =>
  split at h; · exact absurd h nofun
  next hspace =>
  split at h; · exact absurd h nofun
  next hpath =>
  obtain rfl := Option.some.inj h
  have hline : l = method ++ ' ' :: l.drop (method.length + 1) :=
    requestMethod_prefix (not_not.mp hspace)
  let after := (l.drop (method.length + 1)).dropWhile isPathChar
  refine ⟨after ++ buf.dropWhile (· ≠ '\x00'), ?_, ?_, requestMethod_upper, ?_, ?_, ?_⟩
  · have hbuf : buf = l ++ buf.dropWhile (· ≠ '\x00') := List.takeWhile_append_dropWhile.symm
    have hrest : l.drop (method.length + 1) = path ++ after :=
      List.takeWhile_append_dropWhile.symm
    rw [hrest] at hline
    calc buf = l ++ buf.dropWhile (· ≠ '\x00') := hbuf
      _ = (method ++ ' ' :: (path ++ after)) ++ buf.dropWhile (· ≠ '\x00') := by rw [← hline]
      _ = method ++ ' ' :: (path ++ (after ++ buf.dropWhile (· ≠ '\x00'))) := by simp
  · exact fun he => hmethod (List.length_eq_zero_iff.mpr he)
  · exact fun he => hpath (List.length_eq_zero_iff.mpr he)
  · exact fun c hc => List.mem_takeWhile_imp hc
  · exact fun c => ends_dropWhile

/-- The text up to the first null byte begins with the request, too. -/
theorem RequestLine.text_eq (h : RequestLine r buf rest) :
    ∃ cut, buf.takeWhile (· ≠ '\x00') = r.method ++ ' ' :: (r.path ++ cut) ∧
      ∀ c ∈ cut.head?, isPathChar c = false := by
  refine ⟨rest.takeWhile (· ≠ '\x00'), ?_, fun c hc => h.rest_ends c ?_⟩
  · have hmethod : ∀ c ∈ r.method, decide (c ≠ '\x00') = true := fun c hc =>
      decide_eq_true (isUpper_ne_null (h.method_upper c hc))
    have hpath : ∀ c ∈ r.path, decide (c ≠ '\x00') = true := fun c hc =>
      decide_eq_true (isPathChar_ne_null (h.path_chars c hc))
    rw [h.eq, List.takeWhile_append_of_pos hmethod, List.takeWhile_cons_of_pos (by decide),
      List.takeWhile_append_of_pos hpath]
  · cases rest with
    | nil => simp at hc
    | cons d rest =>
      by_cases hd : d = '\x00'
      · simp [hd] at hc
      · simpa [hd] using hc

/-- The parser returns the request that a buffer begins with. -/
theorem RequestLine.parseRequest_eq (h : RequestLine r buf rest) : parseRequest buf = some r := by
  obtain ⟨cut, hline, hcut⟩ := h.text_eq
  have hrest : (r.path ++ cut).takeWhile isPathChar = r.path :=
    takeWhile_append_of_ends h.path_chars hcut
  simp only [parseRequest, hline, requestMethod_append h.method_upper]
  simp [hrest, h.method_ne, h.path_ne]

/-- The parser accepts exactly the buffers that begin with a request, and returns it. -/
theorem parseRequest_iff : parseRequest buf = some r ↔ ∃ rest, RequestLine r buf rest :=
  ⟨requestLine_of_parseRequest, fun ⟨_, h⟩ => h.parseRequest_eq⟩

/-! ## What is accepted -/

theorem RequestLine.beginsWith (h : RequestLine r buf rest) :
    BeginsWith (buf.takeWhile (· ≠ '\x00')) r.method r.path where
  begins := by
    obtain ⟨cut, hline, -⟩ := h.text_eq
    exact ⟨cut, by rw [hline]; simp⟩
  method_ne := h.method_ne
  method_upper c hc := isUpper_iff.mp (h.method_upper c hc)
  path_ne := h.path_ne
  path_chars c hc := by
    have hpath := h.path_chars c hc
    simp only [isPathChar, Bool.and_eq_true, decide_eq_true_eq] at hpath
    exact ⟨hpath.1.1.2, hpath.2, hpath.1.2⟩

/-- A beginning of a request can be continued to the one that the parser returns. -/
theorem BeginsWith.parseRequest_eq (h : BeginsWith (buf.takeWhile (· ≠ '\x00')) m p) :
    ∃ more, parseRequest buf = some ⟨m, p ++ more⟩ := by
  obtain ⟨tail, htail⟩ := h.begins
  refine ⟨tail.takeWhile isPathChar, parseRequest_iff.mpr
    ⟨tail.dropWhile isPathChar ++ buf.dropWhile (· ≠ '\x00'), ?_⟩⟩
  have hnull : ∀ c ∈ p, c ≠ '\x00' := by
    intro c hc
    have hmem : c ∈ buf.takeWhile (· ≠ '\x00') := by
      rw [← htail]
      simp [hc]
    simpa using List.mem_takeWhile_imp hmem
  constructor
  · have hsplit : tail = tail.takeWhile isPathChar ++ tail.dropWhile isPathChar :=
      List.takeWhile_append_dropWhile.symm
    calc buf = buf.takeWhile (· ≠ '\x00') ++ buf.dropWhile (· ≠ '\x00') :=
          List.takeWhile_append_dropWhile.symm
      _ = m ++ ' ' :: p ++ tail ++ buf.dropWhile (· ≠ '\x00') := by rw [htail]
      _ = m ++ ' ' :: p ++ (tail.takeWhile isPathChar ++ tail.dropWhile isPathChar) ++
          buf.dropWhile (· ≠ '\x00') := by rw [← hsplit]
      _ = m ++ ' ' :: (p ++ tail.takeWhile isPathChar ++
          (tail.dropWhile isPathChar ++ buf.dropWhile (· ≠ '\x00'))) := by
        simp only [List.append_assoc, List.cons_append]
  · exact h.method_ne
  · exact fun c hc => isUpper_iff.mpr (h.method_upper c hc)
  · simp [h.path_ne]
  · intro c hc
    rcases List.mem_append.mp hc with hc | hc
    · obtain ⟨hspace, hcr, hlf⟩ := h.path_chars c hc
      simp [isPathChar, hnull c hc, hspace, hcr, hlf]
    · exact List.mem_takeWhile_imp hc
  · exact fun c => ends_dropWhile

/-- `read_request` accepts exactly the buffers whose text up to the first null byte begins with
letters, a space and a path, and returns these letters and the longest such path. -/
theorem readRequest_iff (buf : List Char) (reads : List (List Char)) :
    let text := buf.takeWhile (· ≠ '\x00')
    (∀ r, readRequest (buf :: reads) = some r ↔ BeginsWith text r.method r.path ∧
      ∀ method path, BeginsWith text method path → method = r.method ∧ path <+: r.path) ∧
    (readRequest (buf :: reads) = none ↔ ∀ method path, ¬BeginsWith text method path) := by
  intro text
  have hread : readRequest (buf :: reads) = parseRequest buf := by
    rw [readRequest]
    split_ifs with hempty
    · obtain rfl : buf = [] := List.length_eq_zero_iff.mp (by omega)
      rfl
    · rfl
  rw [hread]
  refine ⟨fun r => ⟨fun hr => ?_, fun ⟨hbegins, hmost⟩ => ?_⟩, fun hnone method path h => ?_,
    fun hnot => ?_⟩
  · obtain ⟨rest, hline⟩ := parseRequest_iff.mp hr
    refine ⟨hline.beginsWith, fun method path h => ?_⟩
    obtain ⟨more, hmore⟩ := h.parseRequest_eq
    obtain rfl := Option.some.inj (hr.symm.trans hmore)
    exact ⟨rfl, List.prefix_append _ _⟩
  · obtain ⟨more, hmore⟩ := hbegins.parseRequest_eq
    obtain ⟨rest, hline⟩ := parseRequest_iff.mp hmore
    -- the path cannot grow
    have hlen := (hmost _ _ hline.beginsWith).2.length_le
    have hnil : more = [] := by
      rw [List.length_append] at hlen
      exact List.length_eq_zero_iff.mp (by omega)
    rw [hmore, hnil, List.append_nil]
  · obtain ⟨more, hmore⟩ := h.parseRequest_eq
    rw [hnone] at hmore
    cases hmore
  · cases hr : parseRequest buf with
    | none => rfl
    | some r =>
      obtain ⟨rest, hline⟩ := parseRequest_iff.mp hr
      exact absurd hline.beginsWith (hnot _ _)

/-- A character that is skipped in front of the method leaves no request. -/
example : readRequest [['x', 'G', 'E', 'T', ' ', '/']] = none := by decide

/-! ## Requests that arrive in pieces -/

/-- A request at the beginning of a text is still there when more of the text has arrived, with
the same method and a path that can only grow, and only if the first part ends with it. -/
theorem parseRequest_append (h : parseRequest first = some r) :
    ∃ more, parseRequest (first ++ tail) = some ⟨r.method, r.path ++ more⟩ ∧
      (more ≠ [] → first.length = r.method.length + 1 + r.path.length) := by
  obtain ⟨rest, h⟩ := parseRequest_iff.mp h
  cases hrest : rest with
  | nil =>
    subst hrest
    refine ⟨tail.takeWhile isPathChar, parseRequest_iff.mpr ⟨tail.dropWhile isPathChar, ?_⟩, ?_⟩
    · constructor
      · have htail : tail = tail.takeWhile isPathChar ++ tail.dropWhile isPathChar :=
          List.takeWhile_append_dropWhile.symm
        rw [h.eq]
        conv_lhs => rw [htail]
        simp
      · exact h.method_ne
      · exact h.method_upper
      · exact fun he => h.path_ne (List.append_eq_nil_iff.mp he).1
      · intro c hc
        rcases List.mem_append.mp hc with hc | hc
        · exact h.path_chars c hc
        · exact List.mem_takeWhile_imp hc
      · exact fun c => head_dropWhile
    · intro _
      rw [h.eq]
      simp
      omega
  | cons d rest' =>
    subst hrest
    refine ⟨[], parseRequest_iff.mpr ⟨d :: rest' ++ tail, ?_⟩, absurd rfl⟩
    exact
      { eq := by rw [h.eq]; simp
        method_ne := h.method_ne
        method_upper := h.method_upper
        path_ne := by simpa using h.path_ne
        path_chars := by simpa using h.path_chars
        rest_ends := h.rest_ends }

/-- A first part that ends inside the path is taken for a request with the path so far. -/
theorem parseRequest_cut (h : parseRequest (first ++ tail) = some r)
    (hpath : r.method.length + 1 < first.length)
    (hcut : first.length < r.method.length + 1 + r.path.length) :
    parseRequest first = some ⟨r.method, r.path.take (first.length - (r.method.length + 1))⟩ := by
  obtain ⟨rest, h⟩ := parseRequest_iff.mp h
  have hfirst : first = r.method ++ ' ' :: r.path.take (first.length - (r.method.length + 1)) := by
    obtain ⟨k, hk⟩ : ∃ k, first.length = r.method.length + (k + 1) :=
      ⟨first.length - r.method.length - 1, by omega⟩
    have hshort : k ≤ r.path.length := by omega
    have hlast : first.length - (r.method.length + 1) = k := by omega
    rw [hlast]
    calc first = (first ++ tail).take first.length := List.take_left.symm
      _ = (r.method ++ ' ' :: (r.path ++ rest)).take (r.method.length + (k + 1)) := by rw [h.eq, hk]
      _ = r.method ++ ' ' :: (r.path ++ rest).take k := by
        rw [List.take_length_add_append, List.take_succ_cons]
      _ = r.method ++ ' ' :: r.path.take k := by rw [List.take_append_of_le_length hshort]
  apply parseRequest_iff.mpr
  refine ⟨[], ?_⟩
  constructor
  · simpa using hfirst
  · exact h.method_ne
  · exact h.method_upper
  · intro he
    rw [List.take_eq_nil_iff] at he
    rcases he with he | he
    · omega
    · exact h.path_ne he
  · exact fun c hc => h.path_chars c (List.mem_of_mem_take hc)
  · simp

/-- The first read ends inside the path of the request that the text begins with. -/
def CutsPath (text first : List Char) : Prop :=
  ∃ r rest, RequestLine r text rest ∧ r.method.length + 1 < first.length ∧
    first.length < r.method.length + 1 + r.path.length

/-- The request handled is the one of the whole text exactly if the first read does not end inside
the path of the text. -/
theorem handlesWhole_iff (h : Delivers text reads) :
    HandlesWhole text reads ↔ ∀ first ∈ reads.head?, ¬CutsPath text first := by
  cases reads with
  | nil =>
    constructor
    · simp
    · intro _
      exact ⟨.inl rfl, nofun, nofun⟩
  | cons first more =>
    have hne : ¬first.length < 1 := by
      simpa [Nat.lt_one_iff] using h.ne_nil first List.mem_cons_self
    have hread : readRequest (first :: more) = parseRequest first := if_neg hne
    have htext : first ++ more.flatten = text := h.flatten_eq
    constructor
    · rintro ⟨-, -, hwhole⟩ _ ⟨⟩ ⟨r, rest, hr, hpath, hcut⟩
      have hr := parseRequest_iff.mpr ⟨rest, hr⟩
      have hfirst := parseRequest_cut (htext ▸ hr) hpath hcut
      have := congrArg List.length (hwhole _ r (hread.trans hfirst) hr (List.take_prefix _ _))
      simp only [List.length_take] at this
      omega
    · intro hcut
      have key : ∀ r, readRequest (first :: more) = some r → parseRequest text = some r := by
        intro r hr
        obtain ⟨rest, hline⟩ := parseRequest_iff.mp (hread ▸ hr)
        obtain ⟨grown, hgrown, hlength⟩ := parseRequest_append (hread ▸ hr)
        rw [htext] at hgrown
        by_cases hnil : grown = []
        · simpa [hnil] using hgrown
        · have hpos := List.length_pos_iff.mpr hnil
          have hend := hlength hnil
          have hpath := List.length_pos_iff.mpr hline.path_ne
          obtain ⟨rest', hline'⟩ := parseRequest_iff.mp hgrown
          refine absurd ⟨_, rest', hline', ?_, ?_⟩ (hcut first rfl)
          · show r.method.length + 1 < first.length
            omega
          · show first.length < r.method.length + 1 + (r.path ++ grown).length
            rw [List.length_append]
            omega
      constructor
      · cases hr : readRequest (first :: more) with
        | none => exact .inl rfl
        | some r => exact .inr (key r hr).symm
      · intro r hr
        exact key r (Option.filter_eq_some_iff.mp hr).1
      · intro r r' hr hr' _
        rw [Option.some.inj ((key r hr).symm.trans hr')]

/-! ## A request to cancel a scan -/

def cancelFirst : List Char :=
  ['P', 'O', 'S', 'T', ' ', '/', 'c', 'a', 'n', 'c', 'e', 'l', '?', 'i', 'd', '=', '1']

def cancelRest : List Char := ['2', ' ', 'H', 'T', 'T', 'P', '\r', '\n', '\r', '\n']

/-- Delivered in one piece, the request is handled as it was sent. -/
theorem handlesWhole_one_piece :
    HandlesWhole (cancelFirst ++ cancelRest) [cancelFirst ++ cancelRest] := by
  have h : Delivers (cancelFirst ++ cancelRest) [cancelFirst ++ cancelRest] := by
    constructor <;> decide
  apply (handlesWhole_iff h).mpr
  rintro _ ⟨⟩ ⟨r, rest, hline, -, hcut⟩
  rw [hline.eq] at hcut
  simp at hcut
  omega

/-- Delivered in two pieces, the request to cancel scan 12 cancels scan 1. -/
theorem readRequest_cut :
    Delivers (cancelFirst ++ cancelRest) [cancelFirst, cancelRest] ∧
      handleRequest [cancelFirst, cancelRest] =
        some ⟨['P', 'O', 'S', 'T'], ['/', 'c', 'a', 'n', 'c', 'e', 'l', '?', 'i', 'd', '=', '1']⟩ ∧
      parseRequest (cancelFirst ++ cancelRest) =
        some ⟨['P', 'O', 'S', 'T'],
          ['/', 'c', 'a', 'n', 'c', 'e', 'l', '?', 'i', 'd', '=', '1', '2']⟩ ∧
      ¬HandlesWhole (cancelFirst ++ cancelRest) [cancelFirst, cancelRest] := by
  have hfirst : handleRequest [cancelFirst, cancelRest] =
      some ⟨['P', 'O', 'S', 'T'],
        ['/', 'c', 'a', 'n', 'c', 'e', 'l', '?', 'i', 'd', '=', '1']⟩ := by
    decide
  refine ⟨by constructor <;> decide, hfirst, by decide, ?_⟩
  intro h
  exact absurd (h.handled _ hfirst) (by decide)

end HttpServer

end ScanDaemon
