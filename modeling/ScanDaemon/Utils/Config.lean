import Mathlib
import ScanDaemon.Daemon.Handlers

/-! # The configuration file

`Config::load` takes each line through the same stages: the comment is cut off,
blanks are trimmed, a section is recognised, and what is left is split at its
first equals sign. The quotes around a value are removed last, so that a comment
mark inside them has already ended the line.
-/

namespace ScanDaemon

open HttpServer (isSpace leadingDigits intMax)

structure DaemonConfig where
  userDownloadSec : ℕ
  deriving DecidableEq, Repr

structure HttpServerConfig where
  fdQueueMaxSize : ℕ
  fdPoolNumThreads : ℕ
  frontendPath : List Char
  serverPort : ℕ
  deriving DecidableEq, Repr

structure ManagerConfig where
  scanQueueMaxSize : ℕ
  scanPoolNumThreads : ℕ
  deriving DecidableEq, Repr

structure SchedulerConfig where
  queueMaxSize : ℕ
  maxConcurrentScan : ℤ
  deriving DecidableEq, Repr

structure AsyncLoggerConfig where
  queueMaxSize : ℕ
  logDir : List Char
  deriving DecidableEq, Repr

structure ExportManagerConfig where
  queSize : ℕ
  deriving DecidableEq, Repr

structure DBConfig where
  dbPath : List Char
  batchSize : ℕ
  fsync : Bool
  deriving DecidableEq, Repr

/-- The members of a `Config`. -/
structure ConfigData where
  daemon : DaemonConfig
  httpserver : HttpServerConfig
  scheduler : SchedulerConfig
  asynclogger : AsyncLoggerConfig
  exportmanager : ExportManagerConfig
  manager : ManagerConfig
  db : DBConfig
  deriving DecidableEq, Repr

/-- The members of a new `Config`. -/
def ConfigData.initial : ConfigData where
  daemon := ⟨300⟩
  httpserver := ⟨1024, 4, "./web/index.html".toList, 8080⟩
  scheduler := ⟨64, 3⟩
  asynclogger := ⟨8192, []⟩
  exportmanager := ⟨524288⟩
  manager := ⟨1024, 4⟩
  db := ⟨[], 16384, false⟩

namespace Config

/-! ## Reading a line -/

def isBlank (c : Char) : Bool := c == ' ' || c == '\t' || c == '\r' || c == '\n'

def trim (str : List Char) : List Char := (str.dropWhile isBlank).rdropWhile isBlank

/-- `to_lower` -/
def toLower (s : List Char) : List Char := s.map Char.toLower

/-- The characters in front of a comment. -/
def isText (c : Char) : Bool := c != '#' && c != ';'

def unquote (value : List Char) : List Char :=
  if 2 ≤ value.length ∧ value.head? = some '"' ∧ value.getLast? = some '"'
  then (value.drop 1).dropLast else value

/-- What a line turns out to be. -/
inductive Line
  | skip
  | header (name : List Char)
  | entry (key value : List Char)
  deriving DecidableEq, Repr

def readLine (rawLine : List Char) : Line :=
  let text := trim (rawLine.takeWhile isText)
  if text = [] then .skip
  else if text.head? = some '[' ∧ text.getLast? = some ']' then
    .header (toLower (trim (text.drop 1).dropLast))
  else if '=' ∉ text then .skip
  else .entry (toLower (trim (text.takeWhile (· ≠ '='))))
    (unquote (trim ((text.dropWhile (· ≠ '=')).drop 1)))

/-! ## The settings -/

/-- The keys whose values pass through `clamp`. -/
inductive Number
  | userDownloadSec | serverPort | fdQueueMaxSize | fdPoolNumThreads | queueMaxSize
  | loggerQueueMaxSize | queSize | scanQueueMaxSize | scanPoolNumThreads | batchSize
  | numThreads | maxSize
  deriving DecidableEq, Repr

/-- The keys whose values are strings. -/
inductive Text | frontendPath | logDir | dbPath
  deriving DecidableEq, Repr

inductive Setting
  | number (n : Number)
  | text (t : Text)
  | maxConcurrentScan
  | fsync
  deriving DecidableEq, Repr

/-- The comparisons of section and key, in their order: the names of each section, and for each of
its keys the names and the setting. -/
def keyTable : List (List String × List (List String × Setting)) :=
  [(["daemon"],
      [(["user_download_sec"], .number .userDownloadSec)]),
    (["httpserver"],
      [(["server_port"], .number .serverPort),
        (["frontend_path"], .text .frontendPath),
        (["fd_queue_max_size", "queue_max_size"], .number .fdQueueMaxSize),
        (["fd_pool_num_threads", "pool_num_threads"], .number .fdPoolNumThreads)]),
    (["scheduler"],
      [(["max_concurrent_scan"], .maxConcurrentScan),
        (["queue_max_size", "pending_queue_max_size"], .number .queueMaxSize)]),
    (["asynclogger", "async_logger"],
      [(["log_dir"], .text .logDir),
        (["queue_max_size"], .number .loggerQueueMaxSize)]),
    (["exportmanager", "export_manager"],
      [(["que_size", "queue_size"], .number .queSize)]),
    (["manager"],
      [(["scan_queue_max_size", "queue_max_size"], .number .scanQueueMaxSize),
        (["scan_pool_num_threads", "pool_num_threads"], .number .scanPoolNumThreads)]),
    (["db", "DB"],
      [(["db_path", "path"], .text .dbPath),
        (["batch_size", "batch"], .number .batchSize),
        (["fsync", "synchronous"], .fsync)]),
    (["threadpool"],
      [(["num_threads", "pool_num_threads"], .number .numThreads)]),
    (["jobqueue"],
      [(["max_size", "queue_max_size"], .number .maxSize)])]

/-- The first entry with a name that is equal to the text. -/
def pick {α : Type} (text : List Char) (table : List (List String × α)) : Option α :=
  (table.find? fun e => e.1.any fun name => name.toList = text).map Prod.snd

def mapKey (sec key : List Char) : Option Setting := (pick sec keyTable).bind (pick key)

/-- The setting of a key in a section; without a section the key is "section.key". -/
def setting (sec key : List Char) : Option Setting :=
  if sec = [] ∧ '.' ∈ key then mapKey (key.takeWhile (· ≠ '.')) ((key.dropWhile (· ≠ '.')).drop 1)
  else mapKey sec key

/-! ## Storing a value -/

/-- `ULLONG_MAX` -/
def ullongMax : ℕ := 2 ^ 64 - 1

/-- The integer that `strtol` reads at the start of a text, before its range is checked. -/
def readInteger (s : List Char) : Option ℤ :=
  let number (t : List Char) : Option ℤ :=
    if t.takeWhile Char.isDigit = [] then none else some (leadingDigits t : ℤ)
  match s.dropWhile isSpace with
  | '-' :: t => (number t).map fun n => -n
  | '+' :: t => number t
  | t => number t

/-- `std::stoi`; `none` is an exception. -/
def stoi (s : List Char) : Option ℤ := (readInteger s).filter fun v => -intMax - 1 ≤ v ∧ v ≤ intMax

/-- `std::stoull`, which negates a number with a minus sign modulo 2⁶⁴. -/
def stoull (s : List Char) : Option ℤ :=
  ((readInteger s).filter fun v => v.natAbs ≤ ullongMax).map fun v => v % 2 ^ 64

def clamp (old newMin newMax : ℤ) : ℤ :=
  if old < newMin then newMin else if old > newMax then newMax else old

/-- The `numeric_limits` maximum that a key is clamped to; the minimum is 0. -/
def Number.max : Number → ℕ
  | .userDownloadSec | .serverPort | .batchSize => 2 ^ 16 - 1
  | _ => 2 ^ 64 - 1

def Number.parse : Number → List Char → Option ℤ
  | .userDownloadSec | .serverPort => stoi
  | _ => stoull

def Number.store (n : Number) (x : ℕ) (d : ConfigData) : ConfigData :=
  match n with
  | .userDownloadSec => { d with daemon.userDownloadSec := x }
  | .serverPort => { d with httpserver.serverPort := x }
  | .fdQueueMaxSize => { d with httpserver.fdQueueMaxSize := x }
  | .fdPoolNumThreads => { d with httpserver.fdPoolNumThreads := x }
  | .queueMaxSize => { d with scheduler.queueMaxSize := x }
  | .loggerQueueMaxSize => { d with asynclogger.queueMaxSize := x }
  | .queSize => { d with exportmanager.queSize := x }
  | .scanQueueMaxSize => { d with manager.scanQueueMaxSize := x }
  | .scanPoolNumThreads => { d with manager.scanPoolNumThreads := x }
  | .batchSize => { d with db.batchSize := x }
  | .numThreads => { d with manager.scanPoolNumThreads := x, httpserver.fdPoolNumThreads := x }
  | .maxSize => { d with manager.scanQueueMaxSize := x, httpserver.fdQueueMaxSize := x }

def Text.store (t : Text) (value : List Char) (d : ConfigData) : ConfigData :=
  match t with
  | .frontendPath => { d with httpserver.frontendPath := value }
  | .logDir => { d with asynclogger.logDir := value }
  | .dbPath => { d with db.dbPath := value }

/-- The assignment for a setting; `none` is an exception. -/
def assign (value : List Char) (d : ConfigData) : Setting → Option ConfigData
  | .number n => (n.parse value).map fun v => n.store (clamp v 0 n.max).toNat d
  | .text t => some (t.store value d)
  | .maxConcurrentScan => (stoi value).map fun n =>
      { d with scheduler.maxConcurrentScan := if n > 0 then n else 1 }
  | .fsync => some { d with db.fsync := toLower value ≠ "false".toList }

/-- An unknown key and an invalid value leave the members as they are. -/
def setValue (sec key value : List Char) (d : ConfigData) : ConfigData :=
  ((setting sec key).bind (assign value d)).getD d

/-- One round of the loop, with the variable `section`. -/
def loadLine (st : List Char × ConfigData) (rawLine : List Char) : List Char × ConfigData :=
  match readLine rawLine with
  | .skip => st
  | .header name => (name, st.2)
  | .entry key value => (st.1, setValue st.1 key value st.2)

/-- The lines that `std::getline` returns. -/
def getLines (text : List Char) : List (List Char) :=
  let pieces := text.splitOn '\n'
  if pieces.getLast? = some [] then pieces.dropLast else pieces

/-- `Config::load`; `none` is a file that cannot be opened. -/
def load (file : Option (List Char)) (d : ConfigData) : Bool × ConfigData :=
  match file with
  | none => (false, d)
  | some text => (true, ((getLines text).foldl loadLine ([], d)).2)

/-! ## Files -/

/-- The section after some lines. -/
def sectionAfter : List Char → List (List Char) → List Char
  | sec, [] => sec
  | sec, rawLine :: lines => match readLine rawLine with
    | .header name => sectionAfter name lines
    | _ => sectionAfter sec lines

/-- No line has a key whose setting is one of `settings`. -/
def neverSets (settings : Setting → Bool) : List Char → List (List Char) → Bool
  | _, [] => true
  | sec, rawLine :: lines => match readLine rawLine with
    | .skip => neverSets settings sec lines
    | .header name => neverSets settings name lines
    | .entry key _ => ((setting sec key).all fun s => !settings s) && neverSets settings sec lines

/-- The line `key = value`. -/
def keyLine (key value : List Char) : List Char := key ++ " = ".toList ++ value

variable {sec key value s t : List Char} {lines before after : List (List Char)} {d d' : ConfigData}
  {c k : Char} {x : Setting} {text rawLine a v rest : List Char} {settings : Setting → Bool}

theorem foldl_loadLine_fst : (lines.foldl loadLine (sec, d)).1 = sectionAfter sec lines := by
  induction lines generalizing sec d with
  | nil => rfl
  | cons rawLine lines ih =>
    rw [List.foldl_cons, loadLine, sectionAfter]
    cases readLine rawLine with
    | skip | header | entry => exact ih

/-- What no line sets is kept. -/
theorem foldl_loadLine_keep {α : Type} {view : ConfigData → α}
    (hview : ∀ s value d d', settings s = false → assign value d s = some d' → view d' = view d)
    (h : neverSets settings sec lines = true) :
    view (lines.foldl loadLine (sec, d)).2 = view d := by
  induction lines generalizing sec d with
  | nil => rfl
  | cons rawLine lines ih =>
    rw [List.foldl_cons, loadLine]
    rw [neverSets] at h
    cases hline : readLine rawLine with
    | skip =>
      rw [hline] at h
      exact ih h
    | header name =>
      rw [hline] at h
      exact ih h
    | entry key value =>
      rw [hline] at h
      simp only [Bool.and_eq_true] at h
      refine (ih h.2).trans ?_
      show view (setValue sec key value d) = view d
      unfold setValue
      cases hset : setting sec key with
      | none => rfl
      | some s =>
        have hs : settings s = false := by simpa [hset] using h.1
        cases ha : assign value d s with
        | none => simp [ha]
        | some d' => simpa [ha] using hview s value d d' hs ha

/-- The part of the members that only one line sets is what this line makes of it. -/
theorem view_load {α : Type} {view : ConfigData → α}
    (hview : ∀ s value d d', settings s = false → assign value d s = some d' → view d' = view d)
    (hlines : getLines text = before ++ rawLine :: after)
    (hline : readLine rawLine = .entry key value)
    (hafter : neverSets settings (sectionAfter [] before) after = true) :
    view (load (some text) d).2 = view (setValue (sectionAfter [] before) key value
      (before.foldl loadLine ([], d)).2) := by
  have hstep : loadLine (before.foldl loadLine ([], d)) rawLine =
      (sectionAfter [] before, setValue (sectionAfter [] before) key value
        (before.foldl loadLine ([], d)).2) := by
    rw [loadLine, hline, foldl_loadLine_fst]
  rw [load, hlines, List.foldl_append, List.foldl_cons, hstep]
  exact foldl_loadLine_keep hview hafter

/-! ## Assignments -/

/-- What an assignment does. -/
theorem assign_cases (h : assign value d x = some d') :
    (∃ n v, x = .number n ∧ d' = n.store v d) ∨ (∃ t, x = .text t ∧ d' = t.store value d) ∨
      (∃ v > 0, d' = { d with scheduler.maxConcurrentScan := v }) ∨
        ∃ b, d' = { d with db.fsync := b } := by
  cases x with
  | number n =>
    obtain ⟨v, -, rfl⟩ := Option.map_eq_some_iff.mp h
    exact .inl ⟨n, _, rfl, rfl⟩
  | text t => exact .inr (.inl ⟨t, rfl, (Option.some.inj h).symm⟩)
  | maxConcurrentScan =>
    obtain ⟨v, -, rfl⟩ := Option.map_eq_some_iff.mp h
    refine .inr (.inr (.inl ⟨_, ?_, rfl⟩))
    split_ifs with hv
    · exact hv
    · exact Int.one_pos
  | fsync => exact .inr (.inr (.inr ⟨_, (Option.some.inj h).symm⟩))

/-! ## Lines with a key -/

/-- The characters of keys. -/
def isKeyChar (c : Char) : Bool := c.isLower || c == '_' || c == '.'

/-- What a known key looks like. -/
def IsKey (key : List Char) : Prop := key ≠ [] ∧ key.all isKeyChar = true

instance (key : List Char) : Decidable (IsKey key) := inferInstanceAs (Decidable (_ ∧ _))

theorem pick_eq_some {α : Type} {table : List (List String × α)} {y : α}
    (h : pick key table = some y) :
    ∃ e ∈ table, e.2 = y ∧ ∃ name ∈ e.1, name.toList = key := by
  obtain ⟨e, he, rfl⟩ := Option.map_eq_some_iff.mp h
  have hfound := List.find?_some he
  obtain ⟨name, hname, hkey⟩ := List.any_eq_true.mp hfound
  exact ⟨e, List.mem_of_find?_eq_some he, rfl, name, hname, of_decide_eq_true hkey⟩

theorem keyTable_names : (keyTable.all fun e =>
    (e.1.all fun name => IsKey name.toList ∨ name = "DB") &&
      e.2.all fun k => k.1.all fun name => IsKey name.toList) = true := by
  decide +kernel

theorem mapKey_isKey (h : mapKey sec key = some x) :
    IsKey key ∧ (IsKey sec ∨ sec = "DB".toList) := by
  obtain ⟨keys, hsec, hkey⟩ := Option.bind_eq_some_iff.mp h
  obtain ⟨e, he, rfl, secName, hsecName, rfl⟩ := pick_eq_some hsec
  obtain ⟨k, hk, -, keyName, hkeyName, rfl⟩ := pick_eq_some hkey
  have hnames := List.all_eq_true.mp keyTable_names e he
  rw [Bool.and_eq_true] at hnames
  constructor
  · exact of_decide_eq_true
      (List.all_eq_true.mp (List.all_eq_true.mp hnames.2 k hk) keyName hkeyName)
  · exact (of_decide_eq_true (List.all_eq_true.mp hnames.1 secName hsecName)).imp_right
      (congrArg String.toList)

theorem toLower_ne_upper (hc : c.isUpper = true) : k.toLower ≠ c := by
  rintro rfl
  unfold Char.toLower at hc
  split at hc
  next hk =>
    simp [Char.isUpper, UInt32.le_iff_toNat_le] at hc hk
    omega
  next hk => exact hk (by simpa [Char.isUpper] using hc)

/-- A key with a setting, written in any case. -/
theorem setting_isKey (h : setting sec (toLower key) = some x) : IsKey (toLower key) := by
  unfold setting at h
  split_ifs at h with hdot
  · obtain ⟨hkey, hsec⟩ := mapKey_isKey h
    have hsplit : toLower key = (toLower key).takeWhile (· ≠ '.') ++
        '.' :: ((toLower key).dropWhile (· ≠ '.')).drop 1 := by
      obtain ⟨a, b, hab, ha⟩ := List.eq_append_cons_of_mem hdot.2
      have hkept : ∀ c ∈ a, decide (c ≠ '.') = true := fun c hc =>
        decide_eq_true (ne_of_mem_of_not_mem hc ha)
      rw [hab, List.takeWhile_append_of_pos hkept, List.dropWhile_append_of_pos hkept]
      simp
    have hsec : IsKey ((toLower key).takeWhile (· ≠ '.')) := by
      refine hsec.resolve_right fun hdb => ?_
      have hmem : 'D' ∈ toLower key := by
        rw [hsplit, hdb]
        exact List.mem_append_left _ (by decide)
      obtain ⟨k, -, hk⟩ := List.mem_map.mp hmem
      exact toLower_ne_upper (by decide) hk
    rw [hsplit]
    refine ⟨by simp, ?_⟩
    rw [List.all_append, List.all_cons, hsec.2, hkey.2]
    rfl
  · exact (mapKey_isKey h).1

/-- No character of a key has a meaning for the line. -/
theorem IsKey.plain (h : IsKey (toLower key)) (hc : c ∈ key) :
    isBlank c = false ∧ isText c = true ∧ c ≠ '=' ∧ c ≠ '[' := by
  have hkey : isKeyChar c.toLower = true :=
    List.all_eq_true.mp h.2 _ (List.mem_map_of_mem hc)
  have hne : ∀ d : Char, isKeyChar d.toLower = false → c ≠ d := by
    rintro d hd rfl
    rw [hkey] at hd
    cases hd
  refine ⟨?_, ?_, hne _ (by decide), hne _ (by decide)⟩
  · simp [isBlank, hne ' ' (by decide), hne '\t' (by decide), hne '\r' (by decide),
      hne '\n' (by decide)]
  · simp [isText, hne '#' (by decide), hne ';' (by decide)]

theorem rdropWhile_behind {p : Char → Bool} (hc : p c = false) :
    (a ++ c :: v).rdropWhile p = a ++ c :: v.rdropWhile p := by
  induction v using List.reverseRecOn with
  | nil => exact List.rdropWhile_concat_neg _ _ _ (by simp [hc])
  | append_singleton v x ih =>
    have happend : a ++ c :: (v ++ [x]) = (a ++ c :: v) ++ [x] := by simp
    rw [happend]
    by_cases hx : p x = true
    · rw [List.rdropWhile_concat_pos _ _ _ hx, List.rdropWhile_concat_pos _ _ _ hx, ih]
    · rw [List.rdropWhile_concat_neg _ _ _ hx, List.rdropWhile_concat_neg _ _ _ hx, happend]

/-- The line `key = value` up to a comment. -/
theorem readLine_keyLine (h : IsKey (toLower key)) (hc : isBlank c = false)
    (hrest : rest.takeWhile isText = c :: v) :
    readLine (keyLine key rest) =
      .entry (toLower key) (unquote (c :: v.rdropWhile isBlank)) := by
  obtain ⟨k, key', rfl⟩ : ∃ k key', key = k :: key' := by
    cases key with
    | nil => exact absurd rfl h.1
    | cons k key' => exact ⟨k, key', rfl⟩
  have hk := h.plain List.mem_cons_self
  have hkept :
      (keyLine (k :: key') rest).takeWhile isText = k :: key' ++ " = ".toList ++ c :: v := by
    rw [keyLine, List.append_assoc, List.takeWhile_append_of_pos fun d hd => (h.plain hd).2.1,
      List.takeWhile_append_of_pos (by simp [isText]), hrest, List.append_assoc]
  have htext : trim ((keyLine (k :: key') rest).takeWhile isText) =
      k :: key' ++ ' ' :: '=' :: ' ' :: c :: v.rdropWhile isBlank := by
    rw [hkept, trim, List.append_assoc, List.cons_append,
      List.dropWhile_cons_of_neg (by simp [hk.1]), ← List.cons_append, ← List.append_assoc,
      rdropWhile_behind hc]
    simp
  have hbefore : (k :: key' ++ ' ' :: '=' :: ' ' :: c :: v.rdropWhile isBlank).takeWhile (· ≠ '=') =
      k :: key' ++ [' '] := by
    rw [List.takeWhile_append_of_pos fun d hd => decide_eq_true (h.plain hd).2.2.1]
    simp
  have hbehind : (k :: key' ++ ' ' :: '=' :: ' ' :: c :: v.rdropWhile isBlank).dropWhile (· ≠ '=') =
      '=' :: ' ' :: c :: v.rdropWhile isBlank := by
    rw [List.dropWhile_append_of_pos fun d hd => decide_eq_true (h.plain hd).2.2.1]
    simp
  have hkeyTrim : trim (k :: key' ++ [' ']) = k :: key' := by
    have hlast : (k :: key').rdropWhile isBlank = k :: key' := by
      rw [List.rdropWhile_eq_self_iff]
      intro hl
      simp [(h.plain (List.getLast_mem hl)).1]
    rw [trim, List.cons_append, List.dropWhile_cons_of_neg (by simp [hk.1]), ← List.cons_append,
      List.rdropWhile_concat_pos _ _ _ (by decide), hlast]
  have hvalueTrim : trim (' ' :: c :: v.rdropWhile isBlank) = c :: v.rdropWhile isBlank := by
    have hself : c :: v.rdropWhile isBlank = (c :: v).rdropWhile isBlank :=
      (rdropWhile_behind (a := []) hc).symm
    rw [trim, List.dropWhile_cons_of_pos (by decide), List.dropWhile_cons_of_neg (by simp [hc]),
      hself, List.rdropWhile_idempotent]
  unfold readLine
  simp only [htext, hbefore, hbehind, hkeyTrim, List.drop_succ_cons, List.drop_zero, hvalueTrim]
  rw [if_neg (by simp), if_neg (by simp [hk.2.2.2]), if_neg (by simp)]

/-! ## Strings in quotes -/

/-- The member that the value of a key is stored in. -/
def Text.view (t : Text) (d : ConfigData) : List Char :=
  match t with
  | .frontendPath => d.httpserver.frontendPath
  | .logDir => d.asynclogger.logDir
  | .dbPath => d.db.dbPath

theorem view_assign {t : Text} (s : Setting) (value : List Char) (d d' : ConfigData)
    (hs : (s == .text t) = false) (h : assign value d s = some d') : t.view d' = t.view d := by
  obtain ⟨n, v, -, rfl⟩ | ⟨t', rfl, rfl⟩ | ⟨v, -, rfl⟩ | ⟨b, rfl⟩ := assign_cases h
  · cases n <;> cases t <;> rfl
  · have hne : t' ≠ t := by simpa using hs
    cases t <;> cases t' <;> first | rfl | exact absurd rfl hne
  · cases t <;> rfl
  · cases t <;> rfl

theorem view_setValue {t : Text} (h : setting sec key = some (.text t)) :
    t.view (setValue sec key value d) = value := by
  rw [setValue, h]
  cases t <;> rfl

theorem unquote_quoted (s : List Char) : unquote ('"' :: (s ++ ['"'])) = s := by
  rw [unquote, if_pos]
  · simp
  · refine ⟨by simp, rfl, ?_⟩
    rw [← List.cons_append, List.getLast?_concat]

/-- Without a closing quote the opening one is kept. -/
theorem unquote_open (h : '"' ∉ s) : unquote ('"' :: s) = '"' :: s := by
  rw [unquote, if_neg]
  rintro ⟨hlen, -, hlast⟩
  have hne : s ≠ [] := by
    rintro rfl
    simp at hlen
  have happend : '"' :: s = ['"'] ++ s := rfl
  rw [happend, List.getLast?_append_of_ne_nil _ hne] at hlast
  exact h (List.mem_of_getLast? hlast)

/-- The quoted value of a line. -/
theorem readLine_quoted (h : IsKey (toLower key)) (hquote : '"' ∉ s) :
    ∃ value, readLine (keyLine key ('"' :: (s ++ ['"']))) = .entry (toLower key) value ∧
      (value = s ↔ '#' ∉ s ∧ ';' ∉ s) := by
  have hmark : isBlank '"' = false := by decide
  by_cases hs : ∀ c ∈ s, isText c = true
  · refine ⟨s, ?_, ?_⟩
    · have hrest : ('"' :: (s ++ ['"'])).takeWhile isText = '"' :: (s ++ ['"']) := by
        rw [List.takeWhile_eq_self_iff]
        intro c hc
        simp only [List.mem_cons, List.mem_append, List.not_mem_nil, or_false] at hc
        rcases hc with rfl | hc | rfl
        · decide
        · exact hs c hc
        · decide
      have hlast : (s ++ ['"']).rdropWhile isBlank = s ++ ['"'] :=
        List.rdropWhile_concat_neg _ _ _ (by decide)
      rw [readLine_keyLine h hmark hrest, hlast, unquote_quoted]
    · refine iff_of_true rfl ⟨fun hmem => ?_, fun hmem => ?_⟩
      · exact absurd (hs _ hmem) (by decide)
      · exact absurd (hs _ hmem) (by decide)
  · -- the comment mark cuts off the closing quote
    have hcut : ('"' :: (s ++ ['"'])).takeWhile isText = '"' :: s.takeWhile isText := by
      rw [List.takeWhile_cons_of_pos (by decide), List.takeWhile_append, if_neg]
      intro hlen
      have hself := (List.takeWhile_prefix isText).eq_of_length hlen
      exact hs (List.takeWhile_eq_self_iff.mp hself)
    have hopen : '"' ∉ (s.takeWhile isText).rdropWhile isBlank := fun hmem =>
      hquote ((List.takeWhile_prefix _).subset ((List.rdropWhile_prefix _ _).subset hmem))
    refine ⟨_, readLine_keyLine h hmark hcut, ?_⟩
    rw [unquote_open hopen]
    refine iff_of_false (fun he => hquote ?_) (fun hno => hs fun c hc => ?_)
    · rw [← he]
      exact List.mem_cons_self
    · simp [isText, ne_of_mem_of_not_mem hc hno.1, ne_of_mem_of_not_mem hc hno.2]

/-- The line `key = "s"` makes `load` store exactly `s` if and only if `s` contains no comment mark,
whatever stands before it and whatever stands behind it without setting the same member. -/
theorem load_text_iff (text s key : List Char) (before after : List (List Char)) (t : Text)
    (d : ConfigData) (hlines : getLines text = before ++ keyLine key ('"' :: (s ++ ['"'])) :: after)
    (hkey : setting (sectionAfter [] before) (toLower key) = some (.text t)) (hquote : '"' ∉ s)
    (hafter : neverSets (fun x => x == .text t) (sectionAfter [] before) after = true) :
    t.view (load (some text) d).2 = s ↔ '#' ∉ s ∧ ';' ∉ s := by
  obtain ⟨value, hline, hvalue⟩ := readLine_quoted (setting_isKey hkey) hquote
  rw [view_load view_assign hlines hline hafter, view_setValue hkey]
  exact hvalue

/-- A path with blanks, brackets and an equals sign is stored. -/
theorem load_text_plain :
    Text.dbPath.view (load (some "; paths\n\n[db]\ndb_path = \" /a=[b]/c \"\n[scheduler]\n".toList)
      .initial).2 = " /a=[b]/c ".toList :=
  (load_text_iff _ " /a=[b]/c ".toList "db_path".toList ["; paths".toList, [], "[db]".toList]
    ["[scheduler]".toList] .dbPath .initial (by decide +kernel) (by decide +kernel)
    (by decide) (by decide +kernel)).mpr (by decide)

/-- A path with a number sign loses the rest of the line. -/
theorem load_text_cut :
    let text := "[db]\ndb_path = \"/a#b\"".toList
    getLines text = ["[db]".toList] ++ keyLine "db_path".toList "\"/a#b\"".toList :: [] ∧
      setting (sectionAfter [] ["[db]".toList]) "db_path".toList = some (.text .dbPath) ∧
      Text.dbPath.view (load (some text) .initial).2 = "\"/a".toList := by
  decide +kernel

end Config

end ScanDaemon
