import ScanDaemon.Daemon.DiffPages
import ScanDaemon.Daemon.Query
import ScanDaemon.Daemon.Scheduler

/-! # The response handlers

A handler writes its response itself and returns 0, or writes nothing and
returns the status code that `handle_request` is to write. What it gets from the
daemon, the database and the operating system is a parameter.
-/

namespace ScanDaemon

namespace HttpServer

/-- The calls of a handler that change the state of the daemon. -/
inductive Operation
  | submitScan (rootPath : Path)
  | cancelScan (id : ScanId)
  | shutdown
  deriving DecidableEq, Repr

/-- The arguments of `write_response`. -/
structure Response where
  statusCode : ℕ
  contentType : String
  body : List Char
  deriving DecidableEq, Repr

/-- What the calls of a handler return. -/
structure Env where
  /-- `serve_page` of the front end; `none` if it cannot be opened -/
  servePage : Option (List Char)
  userDownloadSec : ℤ
  metric : String → ℤ
  submitScan : Path → SubmitScanResult × ScanId
  cancelScan : ScanId → Bool
  getState : List ScanId → List RequestState
  checkExported : List ScanId → List Bool
  getAll : (limit offset : ℤ) → List ScanTaskRow
  getData : ScanId → ScanTaskRow × SummaryCounts
  getScanDiffCount : ScanId → DiffCounts
  getScanDiffDetail : ScanId → (filter limit offset : ℤ) → List (ScanRow × ℕ)
  search : (keyword : List Char) → (limit offset : ℤ) → List IndexRow
  getTopRootInIndex : Path
  groupByFolder : Path → List (Path × ℕ)
  groupByExtension : Path → List (List Char × ℤ × ℕ)
  getDiskInfo : Path → DiskInfo

/-- What a handler has done when it returns `code`. -/
structure Reply where
  operations : List Operation
  written : List Response
  code : ℕ

namespace Reply

/-- `return code` -/
def status (code : ℕ) : Reply := ⟨[], [], code⟩

/-- `write_response(...)` and `return 0` -/
def write (statusCode : ℕ) (contentType : String) (body : List Char) : Reply :=
  ⟨[], [⟨statusCode, contentType, body⟩], 0⟩

/-- A reply that follows a call of the daemon. -/
def after (op : Operation) (r : Reply) : Reply := { r with operations := op :: r.operations }

end Reply

/-- The characters that `isspace` accepts. -/
def isSpace (c : Char) : Bool := c ∈ [' ', '\t', '\n', '\x0b', '\x0c', '\r']

/-- `LLONG_MAX` -/
def llongMax : ℕ := 2 ^ 63 - 1

/-- `INT_MAX` -/
def intMax : ℤ := 2 ^ 31 - 1

/-- The value of the decimal digits at the start of a text. -/
def leadingDigits (s : List Char) : ℕ :=
  (s.takeWhile Char.isDigit).foldl (fun n c => 10 * n + (c.toNat - '0'.toNat)) 0

/-- `atoll`, which stops at the limits of a `long long` -/
def atoll (s : List Char) : ℤ :=
  match s.dropWhile isSpace with
  | '-' :: t => -(min (leadingDigits t) (llongMax + 1) : ℕ)
  | '+' :: t => (min (leadingDigits t) llongMax : ℕ)
  | t => (min (leadingDigits t) llongMax : ℕ)

/-- `parse_id` -/
def parseId (idStr : List Char) : Option ScanId :=
  let l := atoll idStr
  if l ≤ 0 then none else some l.toNat

/-- `parse_int` -/
def parseInt (str : List Char) : Option ℤ :=
  let l := atoll str
  if l ≤ 0 then none else some (if intMax < l then intMax else l)

/-- The loop over the tokens of a list of identifiers. -/
def parseIds (idsStr : List Char) : List ScanId := (idsStr.splitOn ',').filterMap parseId

section Handlers

variable (env : Env) (queries : List Char)

def responseHomepage : Reply :=
  match env.servePage with
  | none => .status 404
  | some body => .write 200 "text/html" body

def responseDownloadTime : Reply :=
  .write 200 "application/json"
    ("\x7b\"user_download_sec\":".toList ++ toString env.userDownloadSec ++ "\x7d".toList)

def responseShutdown : Reply := Reply.after .shutdown (.status 200)

def responseScan : Reply :=
  match getQueryValue queries "root".toList with
  | none => .write 400 "application/json" "\x7b\"error\": \"Empty scan path\" \x7d".toList
  | some rootPath =>
    let (result, id) := env.submitScan rootPath
    Reply.after (.submitScan rootPath) <| match result with
      | .ok => .write 200 "application/json" ("\x7b\"id\":".toList ++ toString id ++ "\x7d".toList)
      | .invalid => .write 400 "application/json"
          "\x7b\"error\": \"No such file or directory\" \x7d".toList
      | .queueFull => .write 429 "application/json"
          "\x7b\"error\": \"Server busy, please submit later\" \x7d".toList
      | .shutdown => .status 503
      | .internalError => .status 500
      | .overlapConflict => .status 409

def responseCancel : Reply :=
  match (getQueryValue queries "id".toList).bind parseId with
  | none => .status 400
  | some id => Reply.after (.cancelScan id) (.status (if env.cancelScan id then 200 else 409))

/-- The numbers of the metrics body, in its order. -/
def metricNames : List String :=
  ["const_scan_max_concurrent_number", "const_scan_pending_queue_size", "scan_running",
    "scan_pending", "const_scan_job_pool_num_threads", "const_scan_job_queue_size",
    "const_request_pool_num_threads", "const_request_queue_size", "const_export_que_size",
    "const_logger_pending_queue_size", "scan_jobs_unfinished", "scan_jobs_submitted",
    "scan_jobs_enqueue_reject", "scan_jobs_queued", "request_jobs_submitted",
    "request_jobs_failed", "request_jobs_queued", "export_pending", "export_running",
    "export_finished", "export_finalizing_running", "export_finalizing_done", "logger_pending",
    "logger_finished", "logger_fallback", "system_start_time"]

def metricItem (name : String) : List Char :=
  "\"".toList ++ name.toList ++ "\":".toList ++ toString (env.metric name)

def responseMetrics : Reply :=
  .write 200 "application/json"
    (appendRows (metricItem env) "\x7b".toList metricNames ++ "\x7d".toList)

def stateItem (row : ScanId × RequestState) : List Char :=
  "\x7b\"id\":".toList ++ toString row.1 ++ ",\"state\":\"".toList ++ (stateArr row.2).toList ++
    "\"\x7d".toList

def responseState : Reply :=
  match getQueryValue queries "id".toList with
  | none => .status 400
  | some idsStr =>
    let ids := parseIds idsStr
    .write 200 "application/json"
      (appendRows stateItem "[".toList (ids.zip (env.getState ids)) ++ "]".toList)

def exportItem (row : ScanId × Bool) : List Char :=
  "\x7b\"id\":".toList ++ toString row.1 ++ ",\"export_state\":\"".toList ++
    (if row.2 then "Exported" else "Exporting").toList ++ "\"\x7d".toList

def responseExporting : Reply :=
  match getQueryValue queries "id".toList with
  | none => .status 400
  | some idsStr =>
    let ids := parseIds idsStr
    .write 200 "application/json"
      (appendRows exportItem "[".toList (ids.zip (env.checkExported ids)) ++ "]".toList)

/-- The page and the limit that the paginated handlers read. -/
def pageAndLimit : Option (ℤ × ℤ) := do
  let page ← (getQueryValue queries "page".toList).bind parseInt
  let limit ← (getQueryValue queries "limit".toList).bind parseInt
  some (page, limit)

def responseScansHistory : Reply :=
  match pageAndLimit queries with
  | none => .status 400
  | some (page, limit) => .write 200 "application/json"
      (scansHistory (env.getAll limit (pageOffset page limit)))

/-- `check_exported(std::vector<uint64_t>{id})[0]` -/
def exported (id : ScanId) : Bool := (env.checkExported [id]).headD false

def responseScanDiffSummary : Reply :=
  match (getQueryValue queries "id".toList).bind parseId with
  | none => .status 400
  | some id =>
    if !exported env id then .status 500
    else
      let (data, cnt) := env.getData id
      .write 200 "application/json" (scanDiffSummary id data cnt (env.getScanDiffCount id))

def responseScanDiffDetail : Reply :=
  match (getQueryValue queries "id".toList).bind parseId, pageAndLimit queries with
  | some id, some (page, limit) =>
    let state := (getQueryValue queries "state".toList).getD "ALL".toList
    if !exported env id then .status 500
    else .write 200 "application/json" (scanDiffDetail
      (env.getScanDiffDetail id (stateFilter (String.ofList state)) limit (pageOffset page limit)))
  | _, _ => .status 400

def responseIndexSearchDetail : Reply :=
  match getQueryValue queries "search".toList, pageAndLimit queries with
  | some keyword, some (page, limit) => .write 200 "application/json"
      (indexSearchDetail (env.search keyword limit (pageOffset page limit)))
  | _, _ => .status 400

def responseIndexSummaryFolder : Reply :=
  let topRoot := env.getTopRootInIndex
  .write 200 "application/json"
    (indexSummaryFolder (env.getDiskInfo topRoot) topRoot (env.groupByFolder topRoot))

def responseIndexSummaryExtension : Reply :=
  let topRoot := env.getTopRootInIndex
  .write 200 "application/json"
    (indexSummaryExtension (env.getDiskInfo topRoot) topRoot (env.groupByExtension topRoot))

end Handlers

inductive Handler
  | homepage | downloadTime | shutdown | scan | cancel | metrics | state | exporting
  | scansHistory | scanDiffSummary | scanDiffDetail | indexSearchDetail
  | indexSummaryFolder | indexSummaryExtension
  deriving DecidableEq, Repr

/-- The call of a handler. -/
def respond (env : Env) (queries : List Char) : Handler → Reply
  | .homepage => responseHomepage env
  | .downloadTime => responseDownloadTime env
  | .shutdown => responseShutdown
  | .scan => responseScan env queries
  | .cancel => responseCancel env queries
  | .metrics => responseMetrics env
  | .state => responseState env queries
  | .exporting => responseExporting env queries
  | .scansHistory => responseScansHistory env queries
  | .scanDiffSummary => responseScanDiffSummary env queries
  | .scanDiffDetail => responseScanDiffDetail env queries
  | .indexSearchDetail => responseIndexSearchDetail env queries
  | .indexSummaryFolder => responseIndexSummaryFolder env
  | .indexSummaryExtension => responseIndexSummaryExtension env

/-! ## Who writes the response -/

/-- Either the handler has written one response or it returns the code of one. -/
def Reply.Answers (r : Reply) : Prop :=
  (∃ response, r.written = [response] ∧ r.code = 0) ∨ (r.written = [] ∧ r.code ≠ 0)

variable {env : Env} {queries : List Char} {r : Reply} {op : Operation} {code : ℕ}

theorem Reply.answers_status (h : code ≠ 0) : (Reply.status code).Answers := Or.inr ⟨rfl, h⟩

theorem Reply.answers_write {contentType : String} {body : List Char} :
    (Reply.write code contentType body).Answers := Or.inl ⟨_, rfl, rfl⟩

theorem Reply.answers_after (h : r.Answers) : (r.after op).Answers := h

theorem responseScan_answers : (responseScan env queries).Answers := by
  unfold responseScan
  cases getQueryValue queries "root".toList with
  | none => exact Reply.answers_write
  | some rootPath =>
    apply Reply.answers_after
    cases (env.submitScan rootPath).1 with
    | ok | invalid | queueFull => exact Reply.answers_write
    | shutdown | internalError | overlapConflict => exact Reply.answers_status (by decide)

theorem responseCancel_answers : (responseCancel env queries).Answers := by
  unfold responseCancel
  split
  · exact Reply.answers_status (by decide)
  · apply Reply.answers_after
    apply Reply.answers_status
    split <;> decide

theorem respond_answers (h : Handler) : (respond env queries h).Answers := by
  have bad : (Reply.status 400).Answers := Reply.answers_status (by decide)
  have failed : (Reply.status 500).Answers := Reply.answers_status (by decide)
  cases h with
  | scan => exact responseScan_answers
  | cancel => exact responseCancel_answers
  | shutdown => exact Reply.answers_after (Reply.answers_status (by decide))
  | homepage =>
    dsimp only [respond, responseHomepage]
    split
    · exact Reply.answers_status (by decide)
    · exact Reply.answers_write
  | downloadTime | metrics | indexSummaryFolder | indexSummaryExtension =>
    exact Reply.answers_write
  | state =>
    dsimp only [respond, responseState]
    split
    · exact bad
    · exact Reply.answers_write
  | exporting =>
    dsimp only [respond, responseExporting]
    split
    · exact bad
    · exact Reply.answers_write
  | scansHistory =>
    dsimp only [respond, responseScansHistory]
    split
    · exact bad
    · exact Reply.answers_write
  | scanDiffSummary =>
    dsimp only [respond, responseScanDiffSummary]
    split
    · exact bad
    · split
      · exact failed
      · exact Reply.answers_write
  | scanDiffDetail =>
    dsimp only [respond, responseScanDiffDetail]
    split
    · split
      · exact failed
      · exact Reply.answers_write
    · exact bad
  | indexSearchDetail =>
    dsimp only [respond, responseIndexSearchDetail]
    split
    · exact Reply.answers_write
    · exact bad

/-! ## What changes the state of the daemon -/

/-- The operation that a handler performs for its queries. -/
def Handler.operation (queries : List Char) : Handler → Option Operation
  | .scan => (getQueryValue queries "root".toList).map .submitScan
  | .cancel => ((getQueryValue queries "id".toList).bind parseId).map .cancelScan
  | .shutdown => some .shutdown
  | _ => none

theorem respond_operations (h : Handler) :
    (respond env queries h).operations = (h.operation queries).toList := by
  cases h with
  | scan =>
    dsimp only [respond, responseScan, Handler.operation]
    cases getQueryValue queries "root".toList with
    | none => rfl
    | some rootPath =>
      dsimp only
      cases (env.submitScan rootPath).1 <;> rfl
  | cancel =>
    dsimp only [respond, responseCancel, Handler.operation]
    cases (getQueryValue queries "id".toList).bind parseId <;> rfl
  | homepage => dsimp only [respond, responseHomepage]; split <;> rfl
  | state => dsimp only [respond, responseState]; split <;> rfl
  | exporting => dsimp only [respond, responseExporting]; split <;> rfl
  | scansHistory => dsimp only [respond, responseScansHistory]; split <;> rfl
  | scanDiffSummary =>
    dsimp only [respond, responseScanDiffSummary]
    split
    · rfl
    · split <;> rfl
  | scanDiffDetail =>
    dsimp only [respond, responseScanDiffDetail]
    split
    · split <;> rfl
    · rfl
  | indexSearchDetail => dsimp only [respond, responseIndexSearchDetail]; split <;> rfl
  | shutdown | downloadTime | metrics | indexSummaryFolder | indexSummaryExtension => rfl

end HttpServer

end ScanDaemon
