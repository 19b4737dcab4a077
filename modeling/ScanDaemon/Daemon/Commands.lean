import ScanDaemon.Daemon.Connections
import ScanDaemon.Daemon.Framing

/-! # Commands of a client

A client writes a command as a request: the method and the path of an endpoint,
and behind a question mark the arguments as percent-encoded parameters, in any
order. The server finds the handler and the arguments again, performs what the
command asks for, and the response is read back as its answer.
-/

namespace ScanDaemon

namespace HttpServer

open HttpText (Message decimal readMessage)
open JsonText (Json PlainText parse raw joined parse_raw_iff)

inductive Command
  | homepage
  | downloadTime
  | shutdown
  | metrics
  | scan (root : Path)
  | cancel (id : ScanId)
  | state (ids : List ScanId)
  | exporting (ids : List ScanId)
  | scansHistory (page limit : ℕ)
  | scanDiffSummary (id : ScanId)
  | scanDiffDetail (id : ScanId) (filter : List Char) (page limit : ℕ)
  | indexSearchDetail (keyword : List Char) (page limit : ℕ)
  | indexSummaryFolder
  | indexSummaryExtension
  deriving DecidableEq, Repr

def idList (ids : List ScanId) : List Char := [','].intercalate (ids.map decimal)

namespace Command

def handler : Command → Handler
  | homepage => .homepage
  | downloadTime => .downloadTime
  | shutdown => .shutdown
  | metrics => .metrics
  | scan _ => .scan
  | cancel _ => .cancel
  | state _ => .state
  | exporting _ => .exporting
  | scansHistory .. => .scansHistory
  | scanDiffSummary _ => .scanDiffSummary
  | scanDiffDetail .. => .scanDiffDetail
  | indexSearchDetail .. => .indexSearchDetail
  | indexSummaryFolder => .indexSummaryFolder
  | indexSummaryExtension => .indexSummaryExtension

/-- The names and the values of the parameters. -/
def arguments : Command → List (List Char × List Char)
  | homepage | downloadTime | shutdown | metrics => []
  | scan root => [("root".toList, root)]
  | cancel id | scanDiffSummary id => [("id".toList, decimal id)]
  | state ids | exporting ids => [("id".toList, idList ids)]
  | scansHistory page limit => [("page".toList, decimal page), ("limit".toList, decimal limit)]
  | scanDiffDetail id filter page limit => [("id".toList, decimal id), ("state".toList, filter),
      ("page".toList, decimal page), ("limit".toList, decimal limit)]
  | indexSearchDetail keyword page limit => [("search".toList, keyword),
      ("page".toList, decimal page), ("limit".toList, decimal limit)]
  | indexSummaryFolder => [("type".toList, "folder".toList)]
  | indexSummaryExtension => [("type".toList, "extension".toList)]

/-- The identifiers are positive numbers of 63 bits, the pages and limits of 31. -/
def InRange : Command → Prop
  | cancel id | scanDiffSummary id => 0 < id ∧ id < 2 ^ 63
  | state ids | exporting ids => ∀ id ∈ ids, 0 < id ∧ id < 2 ^ 63
  | scansHistory page limit | indexSearchDetail _ page limit =>
    (0 < page ∧ page < 2 ^ 31) ∧ 0 < limit ∧ limit < 2 ^ 31
  | scanDiffDetail id _ page limit =>
    (0 < id ∧ id < 2 ^ 63) ∧ (0 < page ∧ page < 2 ^ 31) ∧ 0 < limit ∧ limit < 2 ^ 31
  | _ => True

/-- What a command changes. -/
def operations : Command → List Operation
  | scan root => [.submitScan root]
  | cancel id => [.cancelScan id]
  | shutdown => [.shutdown]
  | _ => []

end Command

/-- What a client learns from a response. -/
inductive Answer
  | page (html : List Char)
  | json (statusCode : ℕ) (doc : Json)
  | bare (statusCode : ℕ)

def stateDoc (row : ScanId × RequestState) : Json :=
  .obj [number "id" row.1, text "state" (stateArr row.2).toList]

def exportDoc (row : ScanId × Bool) : Json :=
  .obj [number "id" row.1, text "export_state" (if row.2 then "Exported" else "Exporting").toList]

def errorDoc (message : String) : Json := .obj [text "error" message.toList]

/-- The answer to the submission of a scan. -/
def submitAnswer : SubmitScanResult × ScanId → Answer
  | (.ok, id) => .json 200 (.obj [number "id" id])
  | (.invalid, _) => .json 400 (errorDoc "No such file or directory")
  | (.queueFull, _) => .json 429 (errorDoc "Server busy, please submit later")
  | (.shutdown, _) => .bare 503
  | (.internalError, _) => .bare 500
  | (.overlapConflict, _) => .bare 409

/-- The answer to a command, by its arguments. -/
def Command.answer (env : Env) : Command → Answer
  | homepage => match env.servePage with
    | none => .bare 404
    | some html => .page html
  | downloadTime => .json 200 (.obj [number "user_download_sec" env.userDownloadSec])
  | shutdown => .bare 200
  | metrics => .json 200 (.obj (metricNames.map fun name => number name (env.metric name)))
  | scan root => submitAnswer (env.submitScan root)
  | cancel id => .bare (if env.cancelScan id then 200 else 409)
  | state ids => .json 200 (.arr ((ids.zip (env.getState ids)).map stateDoc))
  | exporting ids => .json 200 (.arr ((ids.zip (env.checkExported ids)).map exportDoc))
  | scansHistory page limit =>
    .json 200 (itemsDoc historyDoc (env.getAll limit (pageOffset page limit)))
  | scanDiffSummary id =>
    if exported env id then
      .json 200 (scanDiffSummaryDoc id (env.getData id).1 (env.getData id).2
        (env.getScanDiffCount id))
    else .bare 500
  | scanDiffDetail id filter page limit =>
    if exported env id then
      .json 200 (itemsDoc diffDoc (env.getScanDiffDetail id (stateFilter (String.ofList filter))
        limit (pageOffset page limit)))
    else .bare 500
  | indexSearchDetail keyword page limit =>
    .json 200 (itemsDoc indexDoc (env.search keyword limit (pageOffset page limit)))
  | indexSummaryFolder => .json 200 (summaryDoc (env.getDiskInfo env.getTopRootInIndex)
      env.getTopRootInIndex "folders" folderDoc (env.groupByFolder env.getTopRootInIndex))
  | indexSummaryExtension => .json 200 (summaryDoc (env.getDiskInfo env.getTopRootInIndex)
      env.getTopRootInIndex "extensions" extensionDoc (env.groupByExtension env.getTopRootInIndex))

/-- The names of files and the messages that the answer shows are written as they are. -/
def Command.PlainRows (env : Env) : Command → Prop
  | scansHistory page limit =>
    ∀ row ∈ env.getAll limit (pageOffset page limit), PlainText row.submitRoot
  | scanDiffSummary id => PlainText (env.getData id).1.submitRoot
  | scanDiffDetail id filter page limit =>
    ∀ row ∈ env.getScanDiffDetail id (stateFilter (String.ofList filter)) limit
      (pageOffset page limit), PlainText row.1.path
  | indexSearchDetail keyword page limit =>
    ∀ row ∈ env.search keyword limit (pageOffset page limit),
      PlainText row.path ∧ PlainText row.err
  | indexSummaryFolder => PlainText env.getTopRootInIndex ∧
      ∀ entry ∈ env.groupByFolder env.getTopRootInIndex, PlainText entry.1
  | indexSummaryExtension => PlainText env.getTopRootInIndex ∧
      ∀ entry ∈ env.groupByExtension env.getTopRootInIndex, PlainText entry.1
  | _ => True

/-- The parameters carry the arguments of the command; a client encodes only what it must, and no
character that would end the path. -/
structure Command.Carries (c : Command) (params : List Param) : Prop where
  perm : (params.map fun p => (p.name, p.value)).Perm c.arguments
  names : ∀ p ∈ params, p.encName = p.name
  sent : ∀ p ∈ params, p.encValue.all isPathChar = true

def Command.path (c : Command) (params : List Param) : Path :=
  c.handler.path ++ if params = [] then [] else '?' :: queryText params

def Command.request (c : Command) (params : List Param) : RequestContent :=
  ⟨c.handler.method, c.path params⟩

def Command.requestText (c : Command) (params : List Param) : List Char :=
  c.handler.method ++ ' ' :: c.path params

/-- A server that drains serves the homepage and the endpoints of `allow`. -/
def Handler.ServedIn (inDrain : Bool) (h : Handler) : Prop :=
  inDrain = true → h = .homepage ∨ h.method = get ∧ h.path ∈ drainPaths

/-- The response has the status and the content of the answer. -/
def Response.Shows (r : Response) : Answer → Prop
  | .page html => r = ⟨200, "text/html", html⟩
  | .json code doc =>
    r.statusCode = code ∧ r.contentType = "application/json" ∧ parse r.body = some doc
  | .bare code => r = ⟨code, "text/html", []⟩

/-- A client that reads the message learns the answer. -/
def Answer.ReadFrom (m : Message) : Answer → Prop
  | .page html => m.statusCode = 200 ∧ m.body = html
  | .json code doc => m.statusCode = code ∧ parse m.body = some doc
  | .bare code => m.statusCode = code ∧ m.body = []

/-- The call of `write_response` for a response. -/
def Response.write (r : Response) (sends : List Send) : Written :=
  writeResponse r.statusCode r.contentType.toList r.body sends

/-- The response that `handle_request` sends for a reply. -/
def Reply.response (r : Reply) : Response := r.written.headD ⟨r.code, "text/html", []⟩

variable {env : Env} {inDrain : Bool} {c : Command} {params : List Param} {h : Handler} {r : Reply}
  {queries name value : List Char} {id n : ℕ} {ids : List ScanId}

/-! ## Numbers -/

theorem isDigit_of_mem_decimal {d : Char} (hd : d ∈ decimal n) : d.isDigit = true :=
  Nat.isDigit_of_mem_toDigits (by decide) (by decide) hd

theorem leadingDigits_decimal (n : ℕ) : leadingDigits (decimal n) = n := by
  have hself : (decimal n).takeWhile Char.isDigit = decimal n :=
    List.takeWhile_eq_self_iff.mpr fun _ => isDigit_of_mem_decimal
  rw [leadingDigits, hself, ← Nat.ofDigitChars_eq_foldl, decimal, Nat.ofDigitChars_ten_toDigits]

theorem atoll_decimal (hn : n < 2 ^ 63) : atoll (decimal n) = n := by
  have hmin : min (leadingDigits (decimal n)) llongMax = n := by
    rw [leadingDigits_decimal, llongMax]
    omega
  obtain ⟨d, u, hd⟩ := List.exists_cons_of_ne_nil (Nat.toDigits_ne_nil (b := 10) (n := n))
  have hdu : decimal n = d :: u := hd
  have hdigit : d.isDigit = true := isDigit_of_mem_decimal (hdu ▸ List.mem_cons_self)
  have hspace : (decimal n).dropWhile isSpace = d :: u := by
    rw [hdu, List.dropWhile_cons_of_neg]
    simp only [isSpace, decide_eq_true_eq]
    rintro hmem
    simp only [List.mem_cons, List.not_mem_nil, or_false] at hmem
    rcases hmem with rfl | rfl | rfl | rfl | rfl | rfl <;> exact absurd hdigit (by decide)
  unfold atoll
  rw [hspace]
  split
  next he =>
    obtain ⟨rfl, -⟩ := List.cons.inj he
    exact absurd hdigit (by decide)
  next he =>
    obtain ⟨rfl, -⟩ := List.cons.inj he
    exact absurd hdigit (by decide)
  · rw [← hdu, hmin]

theorem parseId_decimal (hid : 0 < id ∧ id < 2 ^ 63) : parseId (decimal id) = some id := by
  rw [parseId, atoll_decimal hid.2]
  have hpos : ¬(id : ℤ) ≤ 0 := by omega
  simp only [if_neg hpos, Int.toNat_natCast]

theorem parseInt_decimal (hn : 0 < n ∧ n < 2 ^ 31) : parseInt (decimal n) = some (n : ℤ) := by
  rw [parseInt, atoll_decimal (hn.2.trans (by decide))]
  have hpos : ¬(n : ℤ) ≤ 0 := by omega
  have hmax : ¬intMax < (n : ℤ) := by
    rw [intMax]
    omega
  simp only [if_neg hpos, if_neg hmax]

theorem parseIds_idList (hids : ∀ id ∈ ids, 0 < id ∧ id < 2 ^ 63) :
    parseIds (idList ids) = ids := by
  rcases eq_or_ne ids [] with rfl | hne
  · rfl
  have hcomma : ∀ l ∈ ids.map decimal, ',' ∉ l := by
    intro l hl hc
    obtain ⟨id, -, rfl⟩ := List.mem_map.mp hl
    exact absurd (isDigit_of_mem_decimal hc) (by decide)
  have hsplit : (idList ids).splitOn ',' = ids.map decimal :=
    List.splitOn_intercalate ',' hcomma (by simpa using hne)
  have hread : ∀ id ∈ ids, (parseId ∘ decimal) id = some id :=
    fun id hid => parseId_decimal (hids id hid)
  rw [parseIds, hsplit, List.filterMap_map, List.filterMap_congr hread, List.filterMap_some]

/-! ## The arguments -/

/-- The names of the parameters of an endpoint. -/
def Handler.names : Handler → List (List Char)
  | .homepage | .downloadTime | .shutdown | .metrics => []
  | .scan => ["root".toList]
  | .cancel | .state | .exporting | .scanDiffSummary => ["id".toList]
  | .scansHistory => ["page".toList, "limit".toList]
  | .scanDiffDetail => ["id".toList, "state".toList, "page".toList, "limit".toList]
  | .indexSearchDetail => ["search".toList, "page".toList, "limit".toList]
  | .indexSummaryFolder | .indexSummaryExtension => ["type".toList]

theorem Command.names_arguments (c : Command) : c.arguments.map Prod.fst = c.handler.names := by
  cases c <;> rfl

/-- Neither name ends in the other one. -/
def Apart (name name' : List Char) : Prop := ¬name <:+ name' ∧ ¬name' <:+ name

instance : DecidableRel Apart := fun _ _ => inferInstanceAs (Decidable (_ ∧ _))

instance : Std.Symm Apart := ⟨fun _ _ h => h.symm⟩

theorem Handler.names_apart (h : Handler) : h.names.Pairwise Apart := by
  cases h <;> decide +kernel

theorem Handler.not_mem_names (h : Handler) : ∀ name ∈ h.names, '&' ∉ name := by
  cases h <;> decide +kernel

theorem Handler.eq_of_suffix {name' : List Char} (hn : name ∈ h.names) (hn' : name' ∈ h.names)
    (hs : name <:+ name') : name = name' := by
  by_contra hne
  exact (h.names_apart.forall hn hn' hne).1 hs

theorem Command.Carries.name_mem (hc : c.Carries params) {p : Param} (hp : p ∈ params) :
    (p.name, p.value) ∈ c.arguments ∧ p.name ∈ c.handler.names := by
  have hmem : (p.name, p.value) ∈ c.arguments :=
    hc.perm.subset (List.mem_map_of_mem (f := fun p : Param => (p.name, p.value)) hp)
  exact ⟨hmem, c.names_arguments ▸ List.mem_map_of_mem (f := Prod.fst) hmem⟩

/-- Each name has one value. -/
theorem Command.value_unique {value' : List Char} (h : (name, value) ∈ c.arguments)
    (h' : (name, value') ∈ c.arguments) : value = value' := by
  have hnodup : (c.arguments.map Prod.fst).Nodup := by
    rw [c.names_arguments]
    refine c.handler.names_apart.imp fun hab => ?_
    rintro rfl
    exact hab.1 (List.suffix_refl _)
  exact congrArg Prod.snd (List.inj_on_of_nodup_map hnodup h h' rfl)

/-- The server finds the value of an argument. -/
theorem Command.Carries.getQueryValue_eq (hc : c.Carries params)
    (hmem : (name, value) ∈ c.arguments) :
    getQueryValue (queryText params) name = some value := by
  have hname : name ∈ c.handler.names := c.names_arguments ▸ List.mem_map_of_mem hmem
  rw [getQueryValue_queryText, located_eq_find (c.handler.not_mem_names name hname)]
  obtain ⟨p, hp, hpair⟩ := List.mem_map.mp (hc.perm.symm.subset hmem)
  obtain ⟨rfl, rfl⟩ := Prod.mk.inj hpair
  cases hfind : params.find? fun q => p.name <:+ q.encName with
  | none =>
    have hnot := List.find?_eq_none.mp hfind p hp
    rw [hc.names p hp] at hnot
    simp at hnot
  | some q =>
    have hq := List.mem_of_find?_eq_some hfind
    have hsuffix : p.name <:+ q.encName := by simpa using List.find?_some hfind
    rw [hc.names q hq] at hsuffix
    obtain ⟨hargument, hqname⟩ := hc.name_mem hq
    rw [← c.handler.eq_of_suffix hname hqname hsuffix] at hargument
    rw [Option.map_some, c.value_unique hargument hmem]

/-! ## What a handler makes of them -/

/-- The values that a handler finds are those of the command. -/
def Command.FoundIn (c : Command) (queries : List Char) : Prop :=
  ∀ a ∈ c.arguments, getQueryValue queries a.1 = some a.2

theorem Command.FoundIn.found (hfound : c.FoundIn queries) (h : (name, value) ∈ c.arguments) :
    getQueryValue queries name = some value := hfound _ h

theorem pageAndLimit_eq {page limit : ℕ}
    (hp : getQueryValue queries "page".toList = some (decimal page))
    (hl : getQueryValue queries "limit".toList = some (decimal limit))
    (hpage : 0 < page ∧ page < 2 ^ 31) (hlimit : 0 < limit ∧ limit < 2 ^ 31) :
    pageAndLimit queries = some ((page : ℤ), (limit : ℤ)) := by
  unfold pageAndLimit
  rw [hp, hl, Option.bind_some, Option.bind_some, parseInt_decimal hpage, parseInt_decimal hlimit]
  rfl

theorem stateItem_eq (row : ScanId × RequestState) : stateItem row = raw (stateDoc row) := by
  unfold stateItem stateDoc
  simp [joined, rawMember_number, rawMember_text]

theorem exportItem_eq (row : ScanId × Bool) : exportItem row = raw (exportDoc row) := by
  unfold exportItem exportDoc
  simp [joined, rawMember_number, rawMember_text]

theorem stateDoc_plain (row : ScanId × RequestState) : (stateDoc row).IsPlain := by
  unfold stateDoc
  simp [number, text, JsonText.Plain, plain_stateArr]

theorem exportDoc_plain (row : ScanId × Bool) : (exportDoc row).IsPlain := by
  unfold exportDoc
  cases row.2 <;> simp [number, text, JsonText.Plain]

/-- The body of a list of rows without a name is read back. -/
theorem parse_rows {α : Type} {item : α → List Char} {doc : α → Json} (rows : List α)
    (hitem : ∀ row, item row = raw (doc row)) (hplain : ∀ row, (doc row).IsPlain) :
    parse (appendRows item "[".toList rows ++ "]".toList) = some (.arr (rows.map doc)) := by
  have hraw : appendRows item "[".toList rows ++ "]".toList = raw (.arr (rows.map doc)) := by
    have hfun : item = fun row => raw (doc row) := funext hitem
    rw [appendRows_eq, hfun]
    simp [Function.comp_def]
  rw [hraw, parse_raw_iff, JsonText.Json.isPlain_arr]
  intro v hv
  obtain ⟨row, -, rfl⟩ := List.mem_map.mp hv
  exact hplain row

theorem plain_metricNames : ∀ name ∈ metricNames, PlainText name.toList := by
  have hall : (metricNames.all fun name => name.toList.all fun d => JsonText.Plain d) = true := by
    decide +kernel
  intro name hname d hd
  exact of_decide_eq_true (List.all_eq_true.mp (List.all_eq_true.mp hall name hname) d hd)

theorem parse_metrics (env : Env) :
    parse (appendRows (metricItem env) "\x7b".toList metricNames ++ "\x7d".toList) =
      some (.obj (metricNames.map fun name => number name (env.metric name))) := by
  have hitem : metricItem env = fun name => JsonText.rawMember (number name (env.metric name)) := by
    funext name
    rw [rawMember_number]
    simp [metricItem]
  have hraw : appendRows (metricItem env) "\x7b".toList metricNames ++ "\x7d".toList =
      raw (.obj (metricNames.map fun name => number name (env.metric name))) := by
    rw [appendRows_eq, hitem, JsonText.raw_obj, List.map_map]
    rfl
  rw [hraw, parse_raw_iff, JsonText.Json.isPlain_obj]
  intro v hv
  obtain ⟨name, hname, rfl⟩ := List.mem_map.mp hv
  exact ⟨plain_metricNames name hname, JsonText.Json.isPlain_num⟩

/-- The body with one number is read back. -/
theorem parse_number {name : String} {n : ℤ} {body : List Char} (hplain : PlainText name.toList)
    (hbody : body = raw (.obj [number name n])) : parse body = some (.obj [number name n]) := by
  rw [hbody, parse_raw_iff, JsonText.Json.isPlain_obj]
  intro v hv
  rw [List.mem_singleton.mp hv]
  exact ⟨hplain, JsonText.Json.isPlain_num⟩

theorem shows_json {body : List Char} {code : ℕ} {doc : Json} (h : parse body = some doc) :
    (Reply.write code "application/json" body).response.Shows (.json code doc) := ⟨rfl, rfl, h⟩

theorem scan_shows {root : Path} (h : getQueryValue queries "root".toList = some root) :
    (responseScan env queries).response.Shows (submitAnswer (env.submitScan root)) := by
  obtain ⟨_, _, _, submitScan, _⟩ := env
  unfold responseScan
  simp only [h]
  generalize submitScan root = submitted
  obtain ⟨result, id⟩ := submitted
  cases result with
  | ok =>
    refine shows_json (parse_number (by simp [JsonText.Plain]) ?_)
    simp [joined, rawMember_number]
  | invalid =>
    have hread : parse "\x7b\"error\": \"No such file or directory\" \x7d".toList =
        some (errorDoc "No such file or directory") := by rfl
    exact shows_json hread
  | queueFull =>
    have hread : parse "\x7b\"error\": \"Server busy, please submit later\" \x7d".toList =
        some (errorDoc "Server busy, please submit later") := by rfl
    exact shows_json hread
  | shutdown | internalError | overlapConflict => rfl

theorem summary_plain {α : Type} {item : α → List Char} {doc : α → Json} {info : DiskInfo}
    {topRoot : Path} {rows : List α} {key : String} (hkey : PlainText key.toList)
    (hitem : ∀ row, item row = raw (doc row)) (hroot : PlainText topRoot)
    (hrows : ∀ row ∈ rows, (doc row).IsPlain) :
    parse (appendRows item (summaryHead info topRoot ++ ('"' :: (key.toList ++ ['"', ':', '['])))
      rows ++ "]".toList ++ "\x7d".toList) = some (summaryDoc info topRoot key doc rows) := by
  rw [summary_eq hitem, parse_raw_iff, summaryDoc_plain hkey]
  exact ⟨hroot, hrows⟩

theorem items_plain {α : Type} {item : α → List Char} {doc : α → Json} {rows : List α}
    (hitem : ∀ row, item row = raw (doc row)) (hrows : ∀ row ∈ rows, (doc row).IsPlain) :
    (Reply.write 200 "application/json"
      (appendRows item "\x7b\"items\":[".toList rows ++ "]\x7d".toList)).response.Shows
        (.json 200 (itemsDoc doc rows)) :=
  shows_json ((items_read_back hitem).mpr hrows)

/-- The response of the handler of a command that is found in the query shows its answer. -/
theorem Command.respond_shows (hfound : c.FoundIn queries) (hrange : c.InRange)
    (hplain : c.PlainRows env) :
    (respond env queries c.handler).response.Shows (c.answer env) := by
  cases c with
  | homepage =>
    unfold respond handler responseHomepage answer
    cases env.servePage <;> rfl
  | downloadTime =>
    refine shows_json (parse_number (by simp [JsonText.Plain]) ?_)
    simp [joined, rawMember_number]
  | shutdown => rfl
  | metrics => exact shows_json (parse_metrics env)
  | scan root => exact scan_shows (hfound.found (by simp [arguments]))
  | cancel id =>
    have hid : getQueryValue queries "id".toList = some (decimal id) :=
      hfound.found (by simp [arguments])
    unfold respond handler responseCancel answer
    rw [hid, Option.bind_some, parseId_decimal hrange]
    rfl
  | state ids =>
    have hid : getQueryValue queries "id".toList = some (idList ids) :=
      hfound.found (by simp [arguments])
    unfold respond handler responseState answer
    rw [hid]
    simp only [parseIds_idList hrange]
    exact shows_json (parse_rows _ stateItem_eq stateDoc_plain)
  | exporting ids =>
    have hid : getQueryValue queries "id".toList = some (idList ids) :=
      hfound.found (by simp [arguments])
    unfold respond handler responseExporting answer
    rw [hid]
    simp only [parseIds_idList hrange]
    exact shows_json (parse_rows _ exportItem_eq exportDoc_plain)
  | scansHistory page limit =>
    have hpages := pageAndLimit_eq (hfound.found (by simp [arguments]))
      (hfound.found (by simp [arguments])) hrange.1 hrange.2
    unfold respond handler responseScansHistory answer
    rw [hpages]
    exact items_plain historyItem_eq fun row hrow => historyDoc_plain.mpr (hplain row hrow)
  | scanDiffSummary id =>
    have hid : getQueryValue queries "id".toList = some (decimal id) :=
      hfound.found (by simp [arguments])
    unfold respond handler responseScanDiffSummary answer
    rw [hid, Option.bind_some, parseId_decimal hrange]
    cases hexported : exported env id with
    | false => simp [hexported]; rfl
    | true =>
      simp only [hexported, Bool.not_true, Bool.false_eq_true, if_false, if_true]
      apply shows_json
      rw [scanDiffSummary_eq, parse_raw_iff]
      have hroot : PlainText (env.getData id).1.submitRoot := hplain
      unfold scanDiffSummaryDoc
      simp [number, text, JsonText.Plain, hroot]
  | scanDiffDetail id filter page limit =>
    have hid : getQueryValue queries "id".toList = some (decimal id) :=
      hfound.found (by simp [arguments])
    have hstate : getQueryValue queries "state".toList = some filter :=
      hfound.found (by simp [arguments])
    have hpages := pageAndLimit_eq (hfound.found (by simp [arguments]))
      (hfound.found (by simp [arguments])) hrange.2.1 hrange.2.2
    unfold respond handler responseScanDiffDetail answer
    rw [hid, hpages, hstate, Option.bind_some, parseId_decimal hrange.1]
    cases hexported : exported env id with
    | false => simp [hexported]; rfl
    | true =>
      simp only [hexported, Bool.not_true, Bool.false_eq_true, if_false, if_true]
      exact items_plain diffItem_eq fun row hrow => diffDoc_plain.mpr (hplain row hrow)
  | indexSearchDetail keyword page limit =>
    have hsearch : getQueryValue queries "search".toList = some keyword :=
      hfound.found (by simp [arguments])
    have hpages := pageAndLimit_eq (hfound.found (by simp [arguments]))
      (hfound.found (by simp [arguments])) hrange.1 hrange.2
    unfold respond handler responseIndexSearchDetail answer
    rw [hsearch, hpages]
    exact items_plain indexItem_eq fun row hrow => indexDoc_plain.mpr (hplain row hrow)
  | indexSummaryFolder =>
    have hkey : "\"folders\":[".toList = '"' :: ("folders".toList ++ ['"', ':', '[']) := by simp
    apply shows_json
    unfold HttpServer.indexSummaryFolder
    rw [hkey]
    exact summary_plain (by simp [JsonText.Plain]) folderItem_eq hplain.1
      fun row hrow => folderDoc_plain.mpr (hplain.2 row hrow)
  | indexSummaryExtension =>
    have hkey : "\"extensions\":[".toList = '"' :: ("extensions".toList ++ ['"', ':', '[']) := by
      simp
    apply shows_json
    unfold HttpServer.indexSummaryExtension
    rw [hkey]
    exact summary_plain (by simp [JsonText.Plain]) extensionItem_eq hplain.1
      fun row hrow => extensionDoc_plain.mpr (hplain.2 row hrow)

theorem Command.operation_eq (hfound : c.FoundIn queries) (hrange : c.InRange) :
    (c.handler.operation queries).toList = c.operations := by
  cases c with
  | scan root =>
    have hroot : getQueryValue queries "root".toList = some root :=
      hfound.found (by simp [arguments])
    unfold handler Handler.operation
    rw [hroot]
    rfl
  | cancel id =>
    have hid : getQueryValue queries "id".toList = some (decimal id) :=
      hfound.found (by simp [arguments])
    unfold handler Handler.operation
    rw [hid, Option.bind_some, parseId_decimal hrange]
    rfl
  | _ => rfl

theorem Command.takes (hfound : c.FoundIn queries) (hrange : c.InRange) :
    c.handler.Takes queries := by
  cases c with
  | scan root =>
    have hroot : getQueryValue queries "root".toList = some root :=
      hfound.found (by simp [arguments])
    simp only [handler, Handler.Takes, Handler.operation, hroot]
    rfl
  | cancel id =>
    have hid : getQueryValue queries "id".toList = some (decimal id) :=
      hfound.found (by simp [arguments])
    simp only [handler, Handler.Takes, Handler.operation, hid, Option.bind_some,
      parseId_decimal hrange]
    rfl
  | indexSummaryFolder =>
    have htype : getQueryValue queries "type".toList = some "folder".toList :=
      hfound.found (by simp [arguments])
    have hne : "folder".toList ≠ "extension".toList := by decide
    simp only [handler, Handler.Takes, summaryHandler, htype, if_neg hne, if_true]
  | indexSummaryExtension =>
    have htype : getQueryValue queries "type".toList = some "extension".toList :=
      hfound.found (by simp [arguments])
    simp only [handler, Handler.Takes, summaryHandler, htype, if_true]
  | _ => trivial

/-! ## The way of a request -/

theorem queryText_ne_nil (h : params ≠ []) : queryText params ≠ [] := by
  match params with
  | [] => exact absurd rfl h
  | [p] => simp [queryText_singleton, Param.text]
  | p :: q :: params => simp [queryText_cons_cons]

theorem all_queryText (h : ∀ p ∈ params, p.encName.all isPathChar ∧ p.encValue.all isPathChar) :
    (queryText params).all isPathChar = true := by
  have hsign : isPathChar '=' = true ∧ isPathChar '&' = true := by decide
  have htext : ∀ p ∈ params, p.text.all isPathChar = true := by
    intro p hp
    simp [Param.text, List.all_append, h p hp, hsign.1]
  induction params with
  | nil => rfl
  | cons p params ih =>
    have hp := htext p List.mem_cons_self
    have hparams := ih (fun q hq => h q (List.mem_cons_of_mem _ hq))
      fun q hq => htext q (List.mem_cons_of_mem _ hq)
    cases params with
    | nil => rwa [queryText_singleton]
    | cons q params =>
      rw [queryText_cons_cons, List.all_append, List.all_append, hp, hparams]
      simp [hsign.2]

theorem Handler.all_path (h : Handler) : h.path.all isPathChar = true := by
  cases h <;> decide

theorem Handler.all_names (h : Handler) : ∀ name ∈ h.names, name.all isPathChar = true := by
  cases h <;> decide +kernel

theorem Handler.head_path (h : Handler) : ∃ p, h.path = '/' :: p := by
  cases h <;> exact ⟨_, rfl⟩

theorem Handler.not_mem_path (h : Handler) : '?' ∉ h.path := by
  cases h <;> decide

theorem Handler.method_upper (h : Handler) :
    h.method ≠ [] ∧ ∀ d ∈ h.method, d.isUpper = true := by
  have hget : get ≠ [] ∧ ∀ d ∈ get, d.isUpper = true := by simp [get]
  have hpost : post ≠ [] ∧ ∀ d ∈ post, d.isUpper = true := by simp [post]
  cases h <;> first | exact hget | exact hpost

theorem queriesOf_path (h : Handler) (hne : params ≠ []) :
    queriesOf (h.path ++ if params = [] then [] else '?' :: queryText params) =
      queryText params := by
  have hmark : ∀ d ∈ h.path, decide (d ≠ '?') = true := fun d hd =>
    decide_eq_true (ne_of_mem_of_not_mem hd h.not_mem_path)
  rw [if_neg hne, queriesOf, List.dropWhile_append_of_pos hmark]
  simp

/-- What a client sends is the line of its request. -/
theorem Command.Carries.requestLine (hc : c.Carries params) {rest : List Char}
    (hrest : ∀ d ∈ rest.head?, isPathChar d = false) :
    RequestLine (c.request params) (c.requestText params ++ rest) rest where
  eq := by simp [request, requestText]
  method_ne := c.handler.method_upper.1
  method_upper := c.handler.method_upper.2
  path_ne := by
    obtain ⟨p, hp⟩ := c.handler.head_path
    simp [request, path, hp]
  path_chars := by
    have hquery : (queryText params).all isPathChar = true := by
      refine all_queryText fun p hp => ⟨?_, hc.sent p hp⟩
      rw [hc.names p hp]
      exact c.handler.all_names _ (hc.name_mem hp).2
    have hall : (c.path params).all isPathChar = true := by
      rw [path, List.all_append, c.handler.all_path, Bool.true_and]
      split_ifs
      · rfl
      · rw [List.all_cons, hquery]
        decide
    exact List.all_eq_true.mp hall
  rest_ends := hrest

theorem Command.arguments_eq_nil (h : c.handler ∈ [.shutdown, .metrics, .downloadTime]) :
    c.arguments = [] := by
  cases c with
  | shutdown | metrics | downloadTime => rfl
  | _ => simp [handler] at h

theorem Command.arguments_ne_nil (hne : c.handler ≠ .homepage)
    (h : c.handler ∉ [.shutdown, .metrics, .downloadTime]) : c.arguments ≠ [] := by
  cases c with
  | homepage => exact absurd rfl hne
  | shutdown | metrics | downloadTime => exact absurd (by simp [handler]) h
  | _ => exact List.cons_ne_nil _ _

theorem Command.Carries.eq_nil (hc : c.Carries params) (h : c.arguments = []) : params = [] := by
  have hperm := hc.perm
  rw [h, List.perm_nil, List.map_eq_nil_iff] at hperm
  exact hperm

/-- The router calls the handler of the command with a query in which its arguments are found. -/
theorem Command.Carries.route_eq (hc : c.Carries params) (hrange : c.InRange)
    (hd : c.handler.ServedIn inDrain) :
    ∃ queries, route inDrain (c.request params) = .call c.handler queries ∧ c.FoundIn queries := by
  by_cases hne : c.handler = .homepage
  · have hnil : c.arguments = [] := by
      cases c with
      | homepage => rfl
      | _ => cases hne
    have hhome : IsHomepage (c.request params) := by
      rw [hc.eq_nil hnil]
      refine ⟨congrArg Handler.method hne, ?_⟩
      change c.handler.path ++ [] = ['/']
      rw [hne]
      rfl
    refine ⟨[], ?_, fun a ha => absurd (hnil ▸ ha) List.not_mem_nil⟩
    rw [hne]
    exact (Routed.homepage hhome).route_eq
  · obtain ⟨r, hmethod, hpath, hleads⟩ := exists_leadsTo hne
    have hmatch : r.Matches (c.request params) :=
      ⟨hmethod.symm, hpath ▸ List.prefix_append _ _⟩
    have hdrain : inDrain = true → r.method = get ∧ r.path ∈ drainPaths := by
      rw [hmethod, hpath]
      exact fun h => (hd h).resolve_left hne
    rcases hleads with ⟨hr, hmem, hh⟩ | ⟨hr, hmem, hh⟩
    · refine ⟨[], (Routed.plain hr hmatch hdrain hh).route_eq, fun a ha => ?_⟩
      rw [Command.arguments_eq_nil hmem] at ha
      cases ha
    · have hparams : params ≠ [] := by
        rintro rfl
        exact Command.arguments_ne_nil hne hmem hc.perm.nil_eq.symm
      have hqueries : queriesOf (c.request params).path = queryText params :=
        queriesOf_path c.handler hparams
      have hfound : c.FoundIn (queryText params) := fun a ha => hc.getQueryValue_eq ha
      refine ⟨queryText params, ?_, hfound⟩
      rw [← hqueries]
      exact (Routed.query hr hmatch hdrain (hqueries ▸ queryText_ne_nil hparams)
        (hqueries ▸ hh _ (Command.takes hfound hrange))).route_eq

/-! ## The way of a response -/

theorem Reply.events_eq (h : r.Answers) : r.written.map SocketEvent.response ++
    (if r.code ≠ 0 then [plainResponse r.code] else []) ++ [.close] =
      [.response r.response, .close] := by
  rcases h with ⟨response, hwritten, hcode⟩ | ⟨hwritten, hcode⟩
  · simp [hwritten, hcode, Reply.response]
  · simp [hwritten, hcode, Reply.response, plainResponse]

def Answer.statusCode : Answer → ℕ
  | .page _ => 200
  | .json code _ | .bare code => code

theorem Command.statusCode_answer (env : Env) (c : Command) :
    100 ≤ (c.answer env).statusCode ∧ (c.answer env).statusCode < 1000 := by
  cases c with
  | homepage => cases h : env.servePage <;> simp [answer, h, Answer.statusCode]
  | scan root =>
    rcases h : env.submitScan root with ⟨result, id⟩
    cases result <;> simp [answer, h, submitAnswer, Answer.statusCode]
  | cancel id => cases h : env.cancelScan id <;> simp [answer, h, Answer.statusCode]
  | scanDiffSummary id => cases h : exported env id <;> simp [answer, h, Answer.statusCode]
  | scanDiffDetail id => cases h : exported env id <;> simp [answer, h, Answer.statusCode]
  | _ => simp [answer, Answer.statusCode]

/-- What shows an answer is read as it. -/
theorem Response.Shows.readFrom {r : Response} {a : Answer} (h : r.Shows a) :
    r.statusCode = a.statusCode ∧ '\r' ∉ r.contentType.toList ∧
      a.ReadFrom (message r.statusCode r.contentType.toList r.body) := by
  have hhtml : '\r' ∉ "text/html".toList := by decide
  have hjson : '\r' ∉ "application/json".toList := by decide
  cases a with
  | page html =>
    obtain rfl := h
    exact ⟨rfl, hhtml, rfl, rfl⟩
  | json code doc =>
    obtain ⟨hcode, htype, hdoc⟩ := h
    exact ⟨hcode, htype ▸ hjson, hcode, hdoc⟩
  | bare code =>
    obtain rfl := h
    exact ⟨rfl, hhtml, rfl, rfl⟩

/-- The transport delivers the text to the first read, which has room for it. -/
structure ReadsWhole (text : List Char) (reads : List (List Char)) : Prop
    extends Delivers text reads where
  first : reads.head? = some text

/-- The server handles the request of a command that its one read returns whole, however the
arguments are encoded and ordered: it performs the operations of the command and sends one response,
from which a client that receives all of it reads the answer. -/
theorem command_answered (env : Env) (inDrain : Bool) (c : Command) (params : List Param)
    (rest : List Char) (reads : List (List Char)) (hc : c.Carries params) (hrange : c.InRange)
    (hd : c.handler.ServedIn inDrain) (hplain : c.PlainRows env)
    (hrest : ∀ d ∈ rest.head?, isPathChar d = false)
    (hreads : ReadsWhole (c.requestText params ++ rest) reads) :
    ∃ request r, handleRequest reads = some request ∧
      (router env inDrain request).operations = c.operations ∧
      handleEvents env inDrain reads = [.response r, .close] ∧
      ∀ sends, (r.write sends).result = some true →
        ∃ m, readMessage (r.write sends).bytes = some (m, []) ∧ (c.answer env).ReadFrom m := by
  obtain ⟨queries, hroute, hfound⟩ := hc.route_eq hrange hd
  have hline := hc.requestLine hrest
  have hhandle : handleRequest reads = some (c.request params) := by
    obtain ⟨pieces, rfl⟩ : ∃ pieces, reads = (c.requestText params ++ rest) :: pieces :=
      List.head?_eq_some_iff.mp hreads.first
    have hne : ¬(c.requestText params ++ rest).length < 1 := by
      simp [Command.requestText]
    obtain ⟨p, hp⟩ := c.handler.head_path
    rw [handleRequest, readRequest, if_neg hne, hline.parseRequest_eq, Option.filter_some,
      if_pos (by simp [Command.request, Command.path, hp])]
  have hrouter : router env inDrain (c.request params) = respond env queries c.handler := by
    rw [router, hroute]
  have hshows := c.respond_shows hfound hrange hplain
  obtain ⟨hcode, htype, hread⟩ := hshows.readFrom
  refine ⟨c.request params, (respond env queries c.handler).response, hhandle, ?_, ?_,
    fun sends hsent => ?_⟩
  · rw [hrouter, respond_operations, Command.operation_eq hfound hrange]
  · rw [handleEvents, hhandle]
    simp only [hrouter]
    exact Reply.events_eq (respond_answers c.handler)
  · have hrangeCode := c.statusCode_answer env
    rw [← hcode] at hrangeCode
    rw [Response.write, writeResponse_sent.mp hsent, readMessage_response hrangeCode htype]
    exact ⟨_, rfl, hread⟩

/-! The submission of a root with a space in its name. -/

theorem encodes_spaced : Encodes ['/', 'a', ' ', 'b'] ['/', 'a', '+', 'b'] :=
  .cons (.plain (by decide)) (.cons (.plain (by decide))
    (.cons .plus (.cons (.plain (by decide)) .nil)))

theorem encodes_root : Encodes ['r', 'o', 'o', 't'] ['r', 'o', 'o', 't'] :=
  encodes_self (by simp)

def spacedRoot : Param :=
  ⟨['r', 'o', 'o', 't'], ['/', 'a', ' ', 'b'], ['r', 'o', 'o', 't'], ['/', 'a', '+', 'b'],
    List.cons_ne_nil _ _, encodes_root, encodes_spaced⟩

theorem command_answered_spaced :
    ∃ request r,
      handleRequest ["POST /scan?root=/a+b HTTP/1.1\r\n\r\n".toList] = some request ∧
      (router acceptingEnv false request).operations = [.submitScan "/a b".toList] ∧
      handleEvents acceptingEnv false ["POST /scan?root=/a+b HTTP/1.1\r\n\r\n".toList] =
        [.response r, .close] ∧
      ∀ sends, (r.write sends).result = some true →
        ∃ m, readMessage (r.write sends).bytes = some (m, []) ∧
          m.statusCode = 200 ∧ parse m.body = some (.obj [number "id" 1]) := by
  have htext : "POST /scan?root=/a+b HTTP/1.1\r\n\r\n".toList =
      (Command.scan ['/', 'a', ' ', 'b']).requestText [spacedRoot] ++
        " HTTP/1.1\r\n\r\n".toList := by decide +kernel
  have hcarries : (Command.scan ['/', 'a', ' ', 'b']).Carries [spacedRoot] :=
    ⟨List.Perm.refl _, by simp [spacedRoot], by simp [spacedRoot, isPathChar]⟩
  have hserved : (Command.scan ['/', 'a', ' ', 'b']).handler.ServedIn false := by
    intro hd
    cases hd
  have hreads : ReadsWhole ((Command.scan ['/', 'a', ' ', 'b']).requestText [spacedRoot] ++
      " HTTP/1.1\r\n\r\n".toList) ["POST /scan?root=/a+b HTTP/1.1\r\n\r\n".toList] := by
    rw [← htext]
    exact ⟨⟨by simp, by decide +kernel, by decide +kernel⟩, rfl⟩
  exact command_answered acceptingEnv false (.scan ['/', 'a', ' ', 'b']) [spacedRoot]
    " HTTP/1.1\r\n\r\n".toList _ hcarries trivial hserved trivial (by simp [isPathChar]) hreads

end HttpServer

end ScanDaemon
