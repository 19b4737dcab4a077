import ScanDaemon.Library.RawJson
import ScanDaemon.Database.Tables

/-! # The bodies of the responses

Six handlers write JSON by joining strings. Each body is the text without
escapes of the document that the rows describe, so that it is read back as this
document exactly if every path, root, folder, extension and error message is
free of quotes, backslashes and control characters.
-/

namespace ScanDaemon

open JsonText

/-- A row that `IndexReader::search` delivers. -/
structure IndexRow where
  modtime : ℤ
  size : ℕ
  err : List Char
  path : Path
  nodeType : NodeType
  state : EventState
  deriving DecidableEq, Repr

/-- A row that `get_scan_diff_detail` delivers, as far as its callback reads it. -/
structure ScanRow where
  size : ℕ
  path : Path
  state : ScanState
  deriving DecidableEq, Repr

/-- The counts that `ScanTable::get_data` fills in. -/
structure SummaryCounts where
  totalSize : ℕ
  fileCnt : ℤ
  dirCnt : ℤ
  linkCnt : ℤ

/-- The counts that `get_scan_diff_count` fills in. -/
structure DiffCounts where
  newCnt : ℤ
  errCnt : ℤ
  deletedCnt : ℤ
  canceledCnt : ℤ
  changedCnt : ℤ

structure DiskInfo where
  capacityBytes : ℕ
  availableBytes : ℕ

namespace Formater

/-- `format_node` -/
def formatNode : NodeType → String
  | .unknown => "unknown"
  | .dir => "directory"
  | .file => "file"
  | .link => "link"

/-- `format_state` -/
def formatState : EventState → String
  | .alive => "alive"
  | .error => "error"
  | .deleted => "deleted"
  | .canceled => "canceled"

end Formater

namespace HttpServer

/-- `std::to_string` -/
def toString (n : ℤ) : List Char := intText n

/-- `state_arr`; a scan that is being dispatched is reported as pending. -/
def stateArr : RequestState → String
  | .pending => "PENDING"
  | .dropped => "DROPPED"
  | .running => "RUNNING"
  | .canceled => "CANCELED"
  | .done => "DONE"
  | .failed => "FAILED"
  | .dispatching => "PENDING"

/-- `static_cast<int>` of a `ScanState`. -/
def stateCode : ScanState → ℤ
  | .new => 0
  | .error => 1
  | .deleted => 2
  | .canceled => 3
  | .changed => 4

section Rows

variable {α : Type} (item : α → List Char)

/-- The callback for one row with the variables `body` and `first`. -/
def appendRow (s : List Char × Bool) (row : α) : List Char × Bool :=
  let body := if !s.2 then s.1 ++ ",".toList else s.1
  (body ++ item row, false)

def appendRows (body : List Char) (rows : List α) : List Char :=
  (rows.foldl (appendRow item) (body, true)).1

end Rows

def historyItem (row : ScanTaskRow) : List Char :=
  "\x7b".toList ++
    "\"scan_id\":".toList ++ toString row.scanId ++ ",".toList ++
    "\"submit_root\":\"".toList ++ row.submitRoot ++ "\",".toList ++
    "\"start_time\":".toList ++ toString row.startTime ++ ",".toList ++
    "\"finish_time\":".toList ++ toString row.finishTime ++ ",".toList ++
    "\"end_state\":\"".toList ++ (stateArr row.endState).toList ++ "\"".toList ++
  "\x7d".toList

/-- The body of `response_scans_history`. -/
def scansHistory (rows : List ScanTaskRow) : List Char :=
  appendRows historyItem "\x7b\"items\":[".toList rows ++ "]\x7d".toList

/-- The body of `response_scan_diff_summary`. -/
def scanDiffSummary (id : ScanId) (data : ScanTaskRow) (cnt : SummaryCounts) (diff : DiffCounts) :
    List Char :=
  let elapsed := uint64 ((data.finishTime : ℤ) - data.startTime)
  "\x7b".toList ++
    "\"id\":".toList ++ toString id ++ ",".toList ++
    "\"root\":\"".toList ++ data.submitRoot ++ "\",".toList ++
    "\"start_time\":".toList ++ toString data.startTime ++ ",".toList ++
    "\"elapsed_time\":".toList ++ toString elapsed ++ ",".toList ++
    "\"file_count\":".toList ++ toString cnt.fileCnt ++ ",".toList ++
    "\"dir_count\":".toList ++ toString cnt.dirCnt ++ ",".toList ++
    "\"link_count\":".toList ++ toString cnt.linkCnt ++ ",".toList ++
    "\"total_size\":".toList ++ toString cnt.totalSize ++ ",".toList ++
    "\"new\":".toList ++ toString diff.newCnt ++ ",".toList ++
    "\"changed\":".toList ++ toString diff.changedCnt ++ ",".toList ++
    "\"deleted\":".toList ++ toString diff.deletedCnt ++ ",".toList ++
    "\"error\":".toList ++ toString diff.errCnt ++ ",".toList ++
    "\"canceled\":".toList ++ toString diff.canceledCnt ++
  "\x7d".toList

def diffItem (row : ScanRow × ℕ) : List Char :=
  "\x7b".toList ++
    "\"state\":".toList ++ toString (stateCode row.1.state) ++ ",".toList ++
    "\"path\":\"".toList ++ row.1.path ++ "\",".toList ++
    "\"size\":".toList ++ toString row.1.size ++ ",".toList ++
    "\"old_size\":".toList ++ toString row.2 ++
  "\x7d".toList

/-- The body of `response_scan_diff_detail`; a row comes with its old size. -/
def scanDiffDetail (rows : List (ScanRow × ℕ)) : List Char :=
  appendRows diffItem "\x7b\"items\":[".toList rows ++ "]\x7d".toList

def indexItem (row : IndexRow) : List Char :=
  "\x7b".toList ++
    "\"path\":\"".toList ++ row.path ++ "\",".toList ++
    "\"size\":".toList ++ toString row.size ++ ",".toList ++
    "\"modtime\":".toList ++ toString row.modtime ++ ",".toList ++
    "\"node_type\":\"".toList ++ (Formater.formatNode row.nodeType).toList ++ "\",".toList ++
    "\"state\":\"".toList ++ (Formater.formatState row.state).toList ++ "\",".toList ++
    "\"err\":\"".toList ++ row.err ++ "\"".toList ++
  "\x7d".toList

/-- The body of `response_index_search_detail`. -/
def indexSearchDetail (rows : List IndexRow) : List Char :=
  appendRows indexItem "\x7b\"items\":[".toList rows ++ "]\x7d".toList

/-- The part that the two summaries of the index have in common. -/
def summaryHead (info : DiskInfo) (topRoot : Path) : List Char :=
  "\x7b".toList ++
    "\"disk_capacity_bytes\":".toList ++ toString info.capacityBytes ++ ",".toList ++
    "\"disk_available_bytes\":".toList ++ toString info.availableBytes ++ ",".toList ++
    "\"root_directory\":\"".toList ++ topRoot ++ "\",".toList

def folderItem (entry : Path × ℕ) : List Char :=
  "\x7b".toList ++
    "\"folder\":\"".toList ++ entry.1 ++ "\",".toList ++
    "\"bytes\":".toList ++ toString entry.2 ++
  "\x7d".toList

/-- The body of `response_index_summary_folder`, with the map in the order of its iterator. -/
def indexSummaryFolder (info : DiskInfo) (topRoot : Path) (folderMap : List (Path × ℕ)) :
    List Char :=
  appendRows folderItem (summaryHead info topRoot ++ "\"folders\":[".toList) folderMap ++
    "]".toList ++ "\x7d".toList

def extensionItem (entry : List Char × ℤ × ℕ) : List Char :=
  "\x7b".toList ++
    "\"extension\":\"".toList ++ entry.1 ++ "\",".toList ++
    "\"counts\":".toList ++ toString entry.2.1 ++ ",".toList ++
    "\"bytes\":".toList ++ toString entry.2.2 ++
  "\x7d".toList

/-- The body of `response_index_summary_extension`, with the map in the order of its iterator. -/
def indexSummaryExtension (info : DiskInfo) (topRoot : Path)
    (extensionMap : List (List Char × ℤ × ℕ)) : List Char :=
  appendRows extensionItem (summaryHead info topRoot ++ "\"extensions\":[".toList) extensionMap ++
    "]".toList ++ "\x7d".toList

/-! ## The documents that the rows describe -/

def number (name : String) (n : ℤ) : List Char × Json := (name.toList, .num n 0)

def text (name : String) (s : List Char) : List Char × Json := (name.toList, .str s)

def historyDoc (row : ScanTaskRow) : Json :=
  .obj [number "scan_id" row.scanId, text "submit_root" row.submitRoot,
    number "start_time" row.startTime, number "finish_time" row.finishTime,
    text "end_state" (stateArr row.endState).toList]

def diffDoc (row : ScanRow × ℕ) : Json :=
  .obj [number "state" (stateCode row.1.state), text "path" row.1.path, number "size" row.1.size,
    number "old_size" row.2]

def indexDoc (row : IndexRow) : Json :=
  .obj [text "path" row.path, number "size" row.size, number "modtime" row.modtime,
    text "node_type" (Formater.formatNode row.nodeType).toList,
    text "state" (Formater.formatState row.state).toList, text "err" row.err]

def folderDoc (entry : Path × ℕ) : Json := .obj [text "folder" entry.1, number "bytes" entry.2]

def extensionDoc (entry : List Char × ℤ × ℕ) : Json :=
  .obj [text "extension" entry.1, number "counts" entry.2.1, number "bytes" entry.2.2]

/-- The document of a list of rows. -/
def itemsDoc {α : Type} (doc : α → Json) (rows : List α) : Json :=
  .obj [("items".toList, .arr (rows.map doc))]

/-- The document of a summary of the index. -/
def summaryDoc {α : Type} (info : DiskInfo) (topRoot : Path) (name : String) (doc : α → Json)
    (entries : List α) : Json :=
  .obj [number "disk_capacity_bytes" info.capacityBytes,
    number "disk_available_bytes" info.availableBytes, text "root_directory" topRoot,
    (name.toList, .arr (entries.map doc))]

def scanDiffSummaryDoc (id : ScanId) (data : ScanTaskRow) (cnt : SummaryCounts)
    (diff : DiffCounts) :
    Json :=
  .obj [number "id" id, text "root" data.submitRoot, number "start_time" data.startTime,
    number "elapsed_time" (uint64 ((data.finishTime : ℤ) - data.startTime)),
    number "file_count" cnt.fileCnt, number "dir_count" cnt.dirCnt,
    number "link_count" cnt.linkCnt, number "total_size" cnt.totalSize, number "new" diff.newCnt,
    number "changed" diff.changedCnt, number "deleted" diff.deletedCnt,
    number "error" diff.errCnt, number "canceled" diff.canceledCnt]

variable {α : Type} {item : α → List Char} {rows : List α} {body : List Char} {name : String}
  {n : ℤ} {s : List Char}

theorem foldl_appendRow : (rows.foldl (appendRow item) (body, false)).1 =
    body ++ (rows.map item).flatMap (',' :: ·) := by
  induction rows generalizing body with
  | nil => simp
  | cons row rows ih => simp [appendRow, ih]

/-- The loop puts a comma between two rows. -/
theorem appendRows_eq : appendRows item body rows = body ++ joined (rows.map item) := by
  cases rows with
  | nil => simp [appendRows, joined]
  | cons row rows => simp [appendRows, appendRow, foldl_appendRow, joined]

theorem rawMember_number : rawMember (number name n) =
    '"' :: (name.toList ++ '"' :: ':' :: toString n) := by
  simp [rawMember, number, quoted, raw, numText, toString]

theorem rawMember_arr {k : List Char} {vs : List Json} : rawMember (k, .arr vs) =
    '"' :: (k ++ '"' :: ':' :: '[' :: (joined (vs.map raw) ++ [']'])) := by
  simp [rawMember, quoted]

theorem rawMember_text : rawMember (text name s) =
    '"' :: (name.toList ++ '"' :: ':' :: '"' :: (s ++ ['"'])) := by
  simp [rawMember, text, quoted]

theorem historyItem_eq (row : ScanTaskRow) : historyItem row = raw (historyDoc row) := by
  unfold historyItem historyDoc
  simp [joined, rawMember_number, rawMember_text]

theorem diffItem_eq (row : ScanRow × ℕ) : diffItem row = raw (diffDoc row) := by
  unfold diffItem diffDoc
  simp [joined, rawMember_number, rawMember_text]

theorem indexItem_eq (row : IndexRow) : indexItem row = raw (indexDoc row) := by
  unfold indexItem indexDoc
  simp [joined, rawMember_number, rawMember_text]

theorem folderItem_eq (entry : Path × ℕ) : folderItem entry = raw (folderDoc entry) := by
  unfold folderItem folderDoc
  simp [joined, rawMember_number, rawMember_text]

theorem extensionItem_eq (entry : List Char × ℤ × ℕ) :
    extensionItem entry = raw (extensionDoc entry) := by
  unfold extensionItem extensionDoc
  simp [joined, rawMember_number, rawMember_text]

theorem scanDiffSummary_eq {id : ScanId} {data : ScanTaskRow} {cnt : SummaryCounts}
    {diff : DiffCounts} :
    scanDiffSummary id data cnt diff = raw (scanDiffSummaryDoc id data cnt diff) := by
  unfold scanDiffSummary scanDiffSummaryDoc
  simp [joined, rawMember_number, rawMember_text]

theorem items_eq {doc : α → Json} (h : ∀ row, item row = raw (doc row)) :
    appendRows item "\x7b\"items\":[".toList rows ++ "]\x7d".toList = raw (itemsDoc doc rows) := by
  have hitem : item = fun row => raw (doc row) := funext h
  rw [appendRows_eq, itemsDoc, hitem]
  simp [joined, rawMember_arr, Function.comp_def]

theorem summary_eq {doc : α → Json} {info : DiskInfo} {topRoot : Path}
    (h : ∀ row, item row = raw (doc row)) :
    appendRows item (summaryHead info topRoot ++ ('"' :: (name.toList ++ ['"', ':', '[']))) rows ++
      "]".toList ++ "\x7d".toList = raw (summaryDoc info topRoot name doc rows) := by
  have hitem : item = fun row => raw (doc row) := funext h
  rw [appendRows_eq, hitem]
  unfold summaryHead summaryDoc
  simp [joined, rawMember_number, rawMember_text, rawMember_arr, Function.comp_def]

/-! ## What is read back -/

theorem plain_stateArr (st : RequestState) : PlainText (stateArr st).toList := by
  cases st <;> simp [stateArr, Plain]

theorem plain_formatNode (t : NodeType) : PlainText (Formater.formatNode t).toList := by
  cases t <;> simp [Formater.formatNode, Plain]

theorem plain_formatState (st : EventState) : PlainText (Formater.formatState st).toList := by
  cases st <;> simp [Formater.formatState, Plain]

theorem historyDoc_plain {row : ScanTaskRow} :
    (historyDoc row).IsPlain ↔ PlainText row.submitRoot := by
  unfold historyDoc
  simp [number, text, Plain, plain_stateArr]

theorem diffDoc_plain {row : ScanRow × ℕ} : (diffDoc row).IsPlain ↔ PlainText row.1.path := by
  unfold diffDoc
  simp [number, text, Plain]

theorem indexDoc_plain {row : IndexRow} :
    (indexDoc row).IsPlain ↔ PlainText row.path ∧ PlainText row.err := by
  unfold indexDoc
  simp [number, text, Plain, plain_formatNode, plain_formatState]

theorem folderDoc_plain {entry : Path × ℕ} : (folderDoc entry).IsPlain ↔ PlainText entry.1 := by
  unfold folderDoc
  simp [number, text, Plain]

theorem extensionDoc_plain {entry : List Char × ℤ × ℕ} :
    (extensionDoc entry).IsPlain ↔ PlainText entry.1 := by
  unfold extensionDoc
  simp [number, text, Plain]

theorem itemsDoc_plain {doc : α → Json} :
    (itemsDoc doc rows).IsPlain ↔ ∀ row ∈ rows, (doc row).IsPlain := by
  simp [itemsDoc, Plain]

theorem summaryDoc_plain {doc : α → Json} {info : DiskInfo} {topRoot : Path}
    (hname : PlainText name.toList) : (summaryDoc info topRoot name doc rows).IsPlain ↔
      PlainText topRoot ∧ ∀ row ∈ rows, (doc row).IsPlain := by
  unfold summaryDoc
  simp [number, text, Plain, hname]

/-- The body of a list of rows is read back as the document of the rows exactly if that is plain. -/
theorem items_read_back {doc : α → Json} (h : ∀ row, item row = raw (doc row)) :
    parse (appendRows item "\x7b\"items\":[".toList rows ++ "]\x7d".toList) =
      some (itemsDoc doc rows) ↔ ∀ row ∈ rows, (doc row).IsPlain := by
  rw [items_eq h, parse_raw_iff, itemsDoc_plain]

/-- Each of the six bodies is read back as the rows that it was built from exactly if their paths,
roots, folders, extensions and messages are plain. -/
theorem bodies_read_back (tasks : List ScanTaskRow) (id : ScanId) (data : ScanTaskRow)
    (cnt : SummaryCounts) (diff : DiffCounts) (changes : List (ScanRow × ℕ))
    (found : List IndexRow) (info : DiskInfo) (topRoot : Path) (folders : List (Path × ℕ))
    (extensions : List (List Char × ℤ × ℕ)) :
    (parse (scansHistory tasks) = some (itemsDoc historyDoc tasks) ↔
      ∀ row ∈ tasks, PlainText row.submitRoot) ∧
    (parse (scanDiffSummary id data cnt diff) = some (scanDiffSummaryDoc id data cnt diff) ↔
      PlainText data.submitRoot) ∧
    (parse (scanDiffDetail changes) = some (itemsDoc diffDoc changes) ↔
      ∀ row ∈ changes, PlainText row.1.path) ∧
    (parse (indexSearchDetail found) = some (itemsDoc indexDoc found) ↔
      ∀ row ∈ found, PlainText row.path ∧ PlainText row.err) ∧
    (parse (indexSummaryFolder info topRoot folders) =
      some (summaryDoc info topRoot "folders" folderDoc folders) ↔
        PlainText topRoot ∧ ∀ entry ∈ folders, PlainText entry.1) ∧
    (parse (indexSummaryExtension info topRoot extensions) =
      some (summaryDoc info topRoot "extensions" extensionDoc extensions) ↔
        PlainText topRoot ∧ ∀ entry ∈ extensions, PlainText entry.1) := by
  refine ⟨?_, ?_, ?_, ?_, ?_, ?_⟩
  · exact (items_read_back historyItem_eq).trans (by simp only [historyDoc_plain])
  · rw [scanDiffSummary_eq, parse_raw_iff]
    unfold scanDiffSummaryDoc
    simp [number, text, Plain]
  · exact (items_read_back diffItem_eq).trans (by simp only [diffDoc_plain])
  · exact (items_read_back indexItem_eq).trans (by simp only [indexDoc_plain])
  · have hkey : "\"folders\":[".toList = '"' :: ("folders".toList ++ ['"', ':', '[']) := by simp
    unfold indexSummaryFolder
    rw [hkey, summary_eq folderItem_eq, parse_raw_iff, summaryDoc_plain (by simp [Plain])]
    simp only [folderDoc_plain]
  · have hkey : "\"extensions\":[".toList = '"' :: ("extensions".toList ++ ['"', ':', '[']) := by
      simp
    unfold indexSummaryExtension
    rw [hkey, summary_eq extensionItem_eq, parse_raw_iff, summaryDoc_plain (by simp [Plain])]
    simp only [extensionDoc_plain]

/-- The body for a file whose name is a quote is not JSON. -/
theorem scanDiffDetail_quote : parse (scanDiffDetail [(⟨0, ['/', '"'], .new⟩, 0)]) = none := by
  have h : (parse (scanDiffDetail [(⟨0, ['/', '"'], .new⟩, 0)])).isNone = true := by decide +kernel
  exact Option.isNone_iff_eq_none.mp h

end HttpServer

end ScanDaemon
