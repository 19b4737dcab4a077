import ScanDaemon.Common.Types

/-! # The scheduler

The state that `Scheduler::mtx` protects and the critical sections that change
it. The gauges `scan_running` and `scan_pending` of `Metrics` are written in
these sections only and are kept here.
-/

namespace ScanDaemon

/-- `formater::paths_overlap` -/
def pathsOverlap (a b : Path) : Bool :=
  decide (a = b) || decide (a.take (b.length + 1) = b ++ ['/']) ||
    decide (b.take (a.length + 1) = a ++ ['/'])

theorem pathsOverlap_iff {p q : Path} :
    pathsOverlap p q = true ↔ p = q ∨ q ++ ['/'] <+: p ∨ p ++ ['/'] <+: q := by
  simp only [pathsOverlap, Bool.or_eq_true, decide_eq_true_eq, or_assoc, List.prefix_iff_eq_take,
    List.length_append, List.length_singleton]
  rw [eq_comm (b := p.take _), eq_comm (b := q.take _)]

theorem pathsOverlap_comm (p q : Path) : pathsOverlap p q = pathsOverlap q p := by
  rw [Bool.eq_iff_iff, pathsOverlap_iff, pathsOverlap_iff, eq_comm, or_comm (a := q ++ _ <+: p)]

theorem pathsOverlap_self (p : Path) : pathsOverlap p p = true := pathsOverlap_iff.mpr (.inl rfl)

inductive SubmitScanResult
  | ok | invalid | queueFull | overlapConflict | internalError | shutdown
  deriving DecidableEq, Repr

structure PendingRoot where
  scanId : ScanId
  root : Path
  deriving DecidableEq, Repr

structure Scheduler where
  stopFlag : Bool
  runningScans : ℤ
  pendingScans : ℤ
  managerQueueFull : Bool
  stateMap : ScanMap RequestState
  rootMap : Finset Path
  pendingQueue : List PendingRoot
  nextScanId : ScanId
  /-- `Metrics::scan_running` -/
  scanRunning : ℤ
  /-- `Metrics::scan_pending` -/
  scanPending : ℕ

namespace Scheduler

/-- A conversion from `size_t` to `int`. -/
def toInt (n : ℕ) : ℤ := Int.bmod n (2 ^ 32)

/-- `MAX_CONCURRENT_SCAN`; it comes from an `int`, so the conversion back is exact. -/
def maxConcurrentScan (cfg : Config) : ℕ :=
  if cfg.maxConcurrentScan = 0 then 1 else cfg.maxConcurrentScan

/-- `QUEUE_MAX_SIZE` -/
def queueMaxSize (cfg : Config) : ℕ := if cfg.queueMaxSize = 0 then 1 else cfg.queueMaxSize

/-- The scheduler after `init_history_scan_id(max_scan_id)`. -/
def new (maxScanId : ScanId) : Scheduler where
  stopFlag := false
  runningScans := 0
  pendingScans := 0
  managerQueueFull := false
  stateMap := ∅
  rootMap := ∅
  pendingQueue := []
  nextScanId := maxScanId + 1
  scanRunning := 0
  scanPending := 0

variable (sc : Scheduler)

/-- `state_map.find(id)` -/
def state (id : ScanId) : Option RequestState := sc.stateMap.lookup id

/-- `it->second = st` -/
@[simps] def setState (id : ScanId) (st : RequestState) : Scheduler :=
  { sc with stateMap := sc.stateMap.insert id st }

def genScanId : ScanId × Scheduler := (sc.nextScanId, { sc with nextScanId := sc.nextScanId + 1 })

def checkNonOverlapPath (path : Path) : Bool :=
  decide (path ∉ sc.rootMap) && decide (∀ r ∈ sc.rootMap, pathsOverlap path r = false)

/-- Record an admitted root. -/
@[simps] def enqueue (newId : ScanId) (rootPath : Path) : Scheduler :=
  { sc.setState newId .pending with
    rootMap := insert rootPath sc.rootMap
    pendingQueue := sc.pendingQueue ++ [⟨newId, rootPath⟩]
    scanPending := sc.scanPending + 1
    pendingScans := sc.pendingScans + 1 }

/-- The critical section of `submit_scan_root`, for an id already drawn. -/
def submitScanRoot (cfg : Config) (newId : ScanId) (rootPath : Path) :
    SubmitScanResult × Scheduler :=
  if sc.stopFlag then (.shutdown, sc)
  else if toInt (queueMaxSize cfg) ≤ sc.pendingScans then (.queueFull, sc)
  else if sc.checkNonOverlapPath rootPath = false then (.overlapConflict, sc)
  else if (sc.state newId).isSome then (.internalError, sc)
  else (.ok, sc.enqueue newId rootPath)

/-- Pop the front entry if it belongs to `id`, and lower `scan_pending` unless it is 0. -/
@[simps] def popFront (id : ScanId) : Scheduler :=
  { sc with
    pendingQueue := match sc.pendingQueue with
      | [] => []
      | d :: rest => if d.scanId = id then rest else d :: rest
    scanPending := sc.scanPending - 1 }

/-- `pop_front`, `scan_pending` and `pending_scans--` -/
@[simps!] def removePending (id : ScanId) : Scheduler :=
  { sc.popFront id with pendingScans := sc.pendingScans - 1 }

/-- What the head of the loop of `run` finds. -/
inductive Head
  | wait
  | stop
  | skip (sc : Scheduler)
  | dispatch (data : PendingRoot) (sc : Scheduler)

/-- The condition under which `run` waits on its condition variable. -/
def idle (cfg : Config) : Bool :=
  sc.pendingQueue.isEmpty || decide (sc.pendingScans = 0) || sc.managerQueueFull ||
    decide ((maxConcurrentScan cfg : ℤ) ≤ sc.runningScans)

/-- The critical section at the head of the loop of `run`. -/
def runHead (cfg : Config) : Head :=
  if sc.stopFlag then .stop
  else if sc.idle cfg then .wait
  else match sc.pendingQueue with
    | [] => .wait
    | data :: _ => match sc.state data.scanId with
      | some .pending => .dispatch data (sc.setState data.scanId .dispatching)
      | none | some .dropped => .skip (sc.popFront data.scanId)
      | some _ => .skip (sc.removePending data.scanId)

/-- `running_scans++` and its gauge -/
@[simps] def addRunning : Scheduler :=
  { sc with runningScans := sc.runningScans + 1, scanRunning := sc.scanRunning + 1 }

/-- `running_scans--` and its gauge -/
@[simps] def subRunning : Scheduler :=
  { sc with runningScans := sc.runningScans - 1, scanRunning := sc.scanRunning - 1 }

/-- `manager_queue_full = true` and the state back to `PENDING` -/
@[simps!] def requeue (id : ScanId) : Scheduler :=
  { sc with managerQueueFull := true }.setState id .pending

/-- The critical section of `run` after `start_new_scan`; the answer tells whether
the scan has to be canceled in the manager. -/
def runCommit (data : PendingRoot) (managerAccept queueFull : Bool) : Bool × Scheduler :=
  match sc.state data.scanId with
  | some .canceled =>
    if managerAccept then (true, (sc.removePending data.scanId).addRunning)
    else (false, sc.removePending data.scanId)
  | some .dispatching =>
    if managerAccept then
      (false, (sc.addRunning.setState data.scanId .running).removePending data.scanId)
    else if queueFull then
      (false, sc.requeue data.scanId)
    else (false, (sc.removePending data.scanId).setState data.scanId .failed)
  | _ => (false, sc)

/-- A pending scan becomes `DROPPED`; its entry stays in the queue. -/
@[simps!] def drop (id : ScanId) : Scheduler :=
  { sc.setState id .dropped with pendingScans := sc.pendingScans - 1 }

/-- The critical section of `cancel`: its answer, and whether the manager is called. -/
def cancel (id : ScanId) : Bool × Bool × Scheduler :=
  match sc.state id with
  | none => (false, false, sc)
  | some .running | some .dispatching => (true, true, sc.setState id .canceled)
  | some .pending => (true, false, sc.drop id)
  | some .done | some .dropped | some .failed | some .canceled => (false, false, sc)

/-- Mark one scan of `state_map` at shutdown, collecting those that may be running. -/
def shutdownScan (acc : List ScanId × ScanMap RequestState) (id : ScanId) :
    List ScanId × ScanMap RequestState :=
  match acc.2.lookup id with
  | some .running | some .dispatching | some .canceled =>
    (acc.1 ++ [id], acc.2.insert id .canceled)
  | _ => acc

/-- Drop one entry of `pending_queue` at shutdown; `state_map[id]` makes a missing entry. -/
def shutdownPending (m : ScanMap RequestState) (data : PendingRoot) : ScanMap RequestState :=
  match m.lookup data.scanId with
  | some .pending | none => m.insert data.scanId .dropped
  | _ => m

/-- The critical section of `shutdown`: the scans to cancel in the manager. -/
def shutdown : List ScanId × Scheduler :=
  let (maybeRunning, m) := sc.stateMap.keys.foldl shutdownScan ([], sc.stateMap)
  (maybeRunning,
    { sc with
      stopFlag := true
      stateMap := sc.pendingQueue.foldl shutdownPending m
      pendingQueue := []
      scanPending := 0
      pendingScans := 0 })

def notifyScanFinished (id : ScanId) : Scheduler :=
  match sc.state id with
  | some .running => sc.subRunning.setState id .done
  | some .canceled => sc.subRunning
  | some .dispatching => sc.setState id .done
  | _ => sc

/-- The state that `get_state` answers for a recorded one. -/
def shownState : Option RequestState → RequestState
  | none => .failed
  | some .dispatching => .pending
  | some st => st

/-- `get_state` -/
def getState (ids : List ScanId) : List RequestState := ids.map fun id => shownState (sc.state id)

@[simps] def notifyDispatchAvailable : Scheduler := { sc with managerQueueFull := false }

@[simps] def notifyExportDone (root : Path) : Scheduler :=
  { sc with rootMap := sc.rootMap.erase root }

section Lemmas

variable {sc} {id k : ScanId} {st : RequestState} {root : Path}

@[simp] theorem state_setState :
    (sc.setState k st).state id = if id = k then some st else sc.state id := by
  simp [state]

@[simp] theorem state_enqueue : (sc.enqueue k root).state id =
    if id = k then some .pending else sc.state id := state_setState

@[simp] theorem state_requeue : (sc.requeue k).state id =
    if id = k then some .pending else sc.state id := state_setState

@[simp] theorem state_drop : (sc.drop k).state id =
    if id = k then some .dropped else sc.state id := state_setState

@[simp] theorem state_popFront : (sc.popFront k).state id = sc.state id := rfl
@[simp] theorem state_removePending : (sc.removePending k).state id = sc.state id := rfl
@[simp] theorem state_addRunning : sc.addRunning.state id = sc.state id := rfl
@[simp] theorem state_subRunning : sc.subRunning.state id = sc.state id := rfl

@[simp] theorem state_notifyDispatchAvailable :
    sc.notifyDispatchAvailable.state id = sc.state id := rfl

@[simp] theorem state_notifyExportDone : (sc.notifyExportDone root).state id = sc.state id := rfl

@[simp] theorem stopFlag_notifyScanFinished :
    (sc.notifyScanFinished id).stopFlag = sc.stopFlag := by
  unfold notifyScanFinished; split <;> rfl

@[simp] theorem managerQueueFull_notifyScanFinished :
    (sc.notifyScanFinished id).managerQueueFull = sc.managerQueueFull := by
  unfold notifyScanFinished; split <;> rfl

@[simp] theorem nextScanId_notifyScanFinished :
    (sc.notifyScanFinished id).nextScanId = sc.nextScanId := by
  unfold notifyScanFinished; split <;> rfl

@[simp] theorem pendingQueue_notifyScanFinished :
    (sc.notifyScanFinished id).pendingQueue = sc.pendingQueue := by
  unfold notifyScanFinished; split <;> rfl

@[simp] theorem rootMap_notifyScanFinished :
    (sc.notifyScanFinished id).rootMap = sc.rootMap := by
  unfold notifyScanFinished; split <;> rfl

theorem state_setState_ne_none (h : sc.state id ≠ none) : (sc.setState k st).state id ≠ none := by
  rw [state_setState]
  split_ifs
  · simp
  · exact h

theorem state_notifyScanFinished_ne_none (h : sc.state id ≠ none) :
    (sc.notifyScanFinished k).state id ≠ none := by
  unfold notifyScanFinished
  split
  · exact state_setState_ne_none h
  · exact h
  · exact state_setState_ne_none h
  · exact h

end Lemmas

/-! ## The effect of shutdown on the state of one scan -/

section Shutdown

variable {sc} {id : ScanId} {m : ScanMap RequestState} {acc : List ScanId} {ids : List ScanId}
  {queue : List PendingRoot}

/-- The states in which a scan is collected by `shutdown`. -/
def MaybeRunning (st : Option RequestState) : Prop :=
  st = some .running ∨ st = some .dispatching ∨ st = some .canceled

instance (st : Option RequestState) : Decidable (MaybeRunning st) :=
  inferInstanceAs (Decidable (_ ∨ _ ∨ _))

theorem shutdownScan_eq : shutdownScan (acc, m) id =
    if MaybeRunning (m.lookup id) then (acc ++ [id], m.insert id .canceled) else (acc, m) := by
  unfold shutdownScan MaybeRunning
  rcases h : m.lookup id with _ | st
  · simp
  · cases st <;> simp

theorem foldl_shutdownScan :
    (∀ k, k ∈ (ids.foldl shutdownScan (acc, m)).1 ↔
      k ∈ acc ∨ k ∈ ids ∧ MaybeRunning (m.lookup k)) ∧
    ∀ k, (ids.foldl shutdownScan (acc, m)).2.lookup k =
      if k ∈ ids ∧ MaybeRunning (m.lookup k) then some .canceled else m.lookup k := by
  induction ids generalizing acc m with
  | nil => simp
  | cons id ids ih =>
    rw [List.foldl_cons, shutdownScan_eq]
    split_ifs with hr
    · refine ⟨fun k => ?_, fun k => ?_⟩
      · rw [ih.1]
        by_cases hk : k = id
        · subst k; simp [hr]
        · simp [hk]
      · rw [ih.2]
        by_cases hk : k = id
        · subst k
          simp [hr]
        · simp [hk]
    · refine ⟨fun k => ?_, fun k => ?_⟩
      · rw [ih.1]
        by_cases hk : k = id
        · subst k; simp [hr]
        · simp [hk]
      · rw [ih.2]
        by_cases hk : k = id
        · subst k; simp [hr]
        · simp [hk]

theorem shutdownPending_eq (data : PendingRoot) : shutdownPending m data =
    if m.lookup data.scanId = some .pending ∨ m.lookup data.scanId = none then
      m.insert data.scanId .dropped else m := by
  unfold shutdownPending
  rcases h : m.lookup data.scanId with _ | st
  · simp
  · cases st <;> simp

theorem foldl_shutdownPending (k : ScanId) :
    (queue.foldl shutdownPending m).lookup k =
      if k ∈ queue.map PendingRoot.scanId ∧
        (m.lookup k = some .pending ∨ m.lookup k = none) then some .dropped
      else m.lookup k := by
  induction queue generalizing m with
  | nil => simp
  | cons data queue ih =>
    simp only [List.foldl_cons, ih, List.map_cons, List.mem_cons, shutdownPending_eq]
    by_cases hp : m.lookup data.scanId = some .pending ∨ m.lookup data.scanId = none
    · by_cases hk : k = data.scanId
      · subst k; simp [hp]
      · simp [hp, hk]
    · by_cases hk : k = data.scanId
      · subst k; simp [hp]
      · simp [hp, hk]

theorem mem_keys_of_maybeRunning (h : MaybeRunning (m.lookup id)) : id ∈ m.keys := by
  refine AList.mem_keys.mp (AList.lookup_isSome.mp ?_)
  rcases h with h | h | h <;> rw [h] <;> rfl

theorem mem_shutdown : id ∈ sc.shutdown.1 ↔ MaybeRunning (sc.state id) := by
  simp only [shutdown, foldl_shutdownScan.1 id, List.not_mem_nil, false_or]
  exact ⟨And.right, fun h => ⟨mem_keys_of_maybeRunning h, h⟩⟩

theorem state_shutdown : sc.shutdown.2.state id =
    if MaybeRunning (sc.state id) then some .canceled
    else if id ∈ sc.pendingQueue.map PendingRoot.scanId ∧
        (sc.state id = some .pending ∨ sc.state id = none) then some .dropped
    else sc.state id := by
  simp only [shutdown, state, foldl_shutdownPending, foldl_shutdownScan.2]
  by_cases hr : MaybeRunning (AList.lookup id sc.stateMap)
  · simp [mem_keys_of_maybeRunning hr, hr]
  · simp [hr]

end Shutdown

end Scheduler

end ScanDaemon
