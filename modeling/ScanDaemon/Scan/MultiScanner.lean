import ScanDaemon.Common.Types

/-! # Scanning one node

What `lstat`, `opendir` and `readdir` find under a path is a finite tree, fixed
while a scan runs. `scanOneNode` gives the event and the child jobs of a node,
and `ScanData.events` the events of a whole subtree.
-/

namespace ScanDaemon

/-- What the file system holds at a path. -/
inductive FsNode
  /-- `lstat` fails -/
  | lstatError (err : ErrorCode)
  | link (mtime : ℤ) (blocks : ℕ)
  | file (mtime : ℤ) (blocks : ℕ)
  /-- a directory for which `opendir` or the first `readdir` fails -/
  | unreadable (mtime : ℤ) (blocks : ℕ) (err : ErrorCode)
  /-- a directory with its entries in the order of `readdir` -/
  | dir (mtime : ℤ) (blocks : ℕ) (entries : List (Path × FsNode))

/-- A job of the scan pool: its scan, its path, and what is found there. -/
structure ScanData where
  scanId : ScanId
  path : Path
  node : FsNode

/-- The entries `.` and `..` are skipped. -/
def isDots (name : Path) : Bool := name == ['.'] || name == ['.', '.']

namespace ScanData

/-- The event that `scan_one_node` records. -/
def event (data : ScanData) : FileEvent :=
  let base : FileEvent :=
    { scanId := data.scanId, path := data.path, modtime := 0, size := 0, err := .ok,
      nodeType := .unknown, endSignal := ⟨false, false⟩ }
  match data.node with
  | .lstatError err => { base with err }
  | .link mtime blocks =>
    { base with nodeType := .link, modtime := mtime, size := blocks * 512 }
  | .file mtime blocks =>
    { base with nodeType := .file, modtime := mtime, size := blocks * 512 }
  | .unreadable mtime blocks err =>
    { base with nodeType := .dir, modtime := mtime, size := blocks * 512, err }
  | .dir mtime blocks _ =>
    { base with nodeType := .dir, modtime := mtime, size := blocks * 512 }

/-- The child of a node for a directory entry. -/
def child (data : ScanData) (entry : Path × FsNode) : ScanData :=
  ⟨data.scanId, data.path ++ '/' :: entry.1, entry.2⟩

/-- The children that `scan_one_node` returns, in the order of `readdir`. -/
def children (data : ScanData) : List ScanData :=
  match data.node with
  | .dir _ _ entries => (entries.filter fun entry => !isDots entry.1).map data.child
  | _ => []

/-- `MultiScanner::scan_one_node`: the recorded event and the children. -/
def scanOneNode (data : ScanData) : FileEvent × List ScanData := (data.event, data.children)

@[simp] theorem event_scanId (data : ScanData) : data.event.scanId = data.scanId := by
  unfold event; cases data.node <;> rfl

@[simp] theorem event_path (data : ScanData) : data.event.path = data.path := by
  unfold event; cases data.node <;> rfl

@[simp] theorem event_endSignal (data : ScanData) : data.event.endSignal = ⟨false, false⟩ := by
  unfold event; cases data.node <;> rfl

theorem scanId_of_mem_children {data c : ScanData} (h : c ∈ data.children) :
    c.scanId = data.scanId := by
  unfold children at h
  cases hn : data.node <;> simp [hn] at h
  obtain ⟨_, _, _, rfl⟩ := h
  rfl

end ScanData

mutual

/-- The events of the tree at `path`, the node first. -/
def FsNode.events (id : ScanId) (path : Path) : FsNode → List FileEvent
  | .dir mtime blocks entries =>
    ScanData.event ⟨id, path, .dir mtime blocks entries⟩ :: FsNode.entryEvents id path entries
  | .lstatError err => [ScanData.event ⟨id, path, .lstatError err⟩]
  | .link mtime blocks => [ScanData.event ⟨id, path, .link mtime blocks⟩]
  | .file mtime blocks => [ScanData.event ⟨id, path, .file mtime blocks⟩]
  | .unreadable mtime blocks err => [ScanData.event ⟨id, path, .unreadable mtime blocks err⟩]

/-- The events of the entries of the directory at `path`. -/
def FsNode.entryEvents (id : ScanId) (path : Path) : List (Path × FsNode) → List FileEvent
  | [] => []
  | (name, node) :: entries =>
    (if isDots name then [] else node.events id (path ++ '/' :: name)) ++
      FsNode.entryEvents id path entries

end

/-- The events of the nodes that a job is answerable for: one for each node of its subtree. -/
def ScanData.events (data : ScanData) : List FileEvent := data.node.events data.scanId data.path

theorem FsNode.entryEvents_eq (id : ScanId) (path : Path) (entries : List (Path × FsNode)) :
    FsNode.entryEvents id path entries =
      (entries.filter fun entry => !isDots entry.1).flatMap fun entry =>
        entry.2.events id (path ++ '/' :: entry.1) := by
  induction entries with
  | nil => rfl
  | cons entry entries ih =>
    obtain ⟨name, node⟩ := entry
    rw [FsNode.entryEvents, ih]
    cases hn : isDots name <;> simp [hn]

/-- A subtree is its node and the subtrees of the children. -/
theorem ScanData.events_eq (data : ScanData) :
    data.events = data.event :: data.children.flatMap ScanData.events := by
  obtain ⟨id, path, node⟩ := data
  cases node <;>
    simp [ScanData.events, FsNode.events, ScanData.children, FsNode.entryEvents_eq,
      List.flatMap_map, ScanData.child]

theorem ScanData.length_events_lt {data c : ScanData} (hc : c ∈ data.children) :
    c.events.length < data.events.length := by
  rw [data.events_eq, List.length_cons, List.length_flatMap, Nat.lt_succ_iff]
  exact List.single_le_sum (by simp) _ (List.mem_map_of_mem hc)

/-- Induction on a subtree: a property of a job follows from the property of its children. -/
theorem ScanData.induction {P : ScanData → Prop}
    (step : ∀ data : ScanData, (∀ c ∈ data.children, P c) → P data) (data : ScanData) : P data := by
  induction hn : data.events.length using Nat.strong_induction_on generalizing data with
  | _ n ih =>
    exact step data fun c hc => ih _ (hn ▸ ScanData.length_events_lt hc) c rfl

theorem ScanData.of_mem_events {data : ScanData} {ev : FileEvent} (h : ev ∈ data.events) :
    ev.scanId = data.scanId ∧ ev.endSignal.isSentinel = false := by
  induction data using ScanData.induction with
  | step data ih =>
    rw [data.events_eq, List.mem_cons, List.mem_flatMap] at h
    rcases h with rfl | ⟨c, hc, h⟩
    · simp
    · rw [← ScanData.scanId_of_mem_children hc]
      exact ih c hc h

mutual

/-- The number of nodes that a scan of the tree visits. -/
def FsNode.size : FsNode → ℕ
  | .dir _ _ entries => FsNode.entrySize entries + 1
  | .lstatError _ | .link _ _ | .file _ _ | .unreadable _ _ _ => 1

def FsNode.entrySize : List (Path × FsNode) → ℕ
  | [] => 0
  | (name, node) :: entries => (if isDots name then 0 else node.size) + FsNode.entrySize entries

end

mutual

theorem FsNode.length_events (id : ScanId) (path : Path) :
    (node : FsNode) → (node.events id path).length = node.size
  | .dir mtime blocks entries => by
    simp [FsNode.events, FsNode.size, FsNode.length_entryEvents id path entries]
  | .lstatError err | .link mtime blocks | .file mtime blocks | .unreadable mtime blocks err => rfl

theorem FsNode.length_entryEvents (id : ScanId) (path : Path) :
    (entries : List (Path × FsNode)) →
      (FsNode.entryEvents id path entries).length = FsNode.entrySize entries
  | [] => rfl
  | (name, node) :: entries => by
    have h₁ := FsNode.length_events id (path ++ '/' :: name) node
    have h₂ := FsNode.length_entryEvents id path entries
    rw [FsNode.entryEvents, FsNode.entrySize, List.length_append, h₂]
    split_ifs
    · rfl
    · rw [h₁]

end

theorem FsNode.size_pos (node : FsNode) : 0 < node.size := by
  cases node <;> simp [FsNode.size]

/-- The number of nodes that some jobs visit. -/
def totalSize (jobs : List ScanData) : ℕ := (jobs.map fun data => data.node.size).sum

@[simp] theorem totalSize_nil : totalSize [] = 0 := rfl

@[simp] theorem totalSize_cons {data : ScanData} {jobs : List ScanData} :
    totalSize (data :: jobs) = data.node.size + totalSize jobs := by simp [totalSize]

@[simp] theorem totalSize_reverse {jobs : List ScanData} :
    totalSize jobs.reverse = totalSize jobs := by simp [totalSize]

/-- A job visits its node and what its children visit. -/
theorem ScanData.size_eq (data : ScanData) : data.node.size = totalSize data.children + 1 := by
  have h := congrArg List.length data.events_eq
  rw [List.length_cons, List.length_flatMap] at h
  simp only [ScanData.events, FsNode.length_events] at h
  exact h

end ScanDaemon
