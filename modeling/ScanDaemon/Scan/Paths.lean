import ScanDaemon.Database.IndexWriter
import ScanDaemon.Library.Components
import ScanDaemon.Scan.MultiScanner

/-! # The paths that a scan records

`scan_one_node` appends `/` and the name of an entry to the path of its
directory, starting from the root that `realpath` has returned. Two scans of
nested roots record the same path for a node, the canonical one, unless the
outer root is the root directory, whose path ends with a slash already.
-/

namespace ScanDaemon

/-- The name of a directory entry other than `.` and `..`. -/
@[ext] structure Name where
  chars : Path
  ne_nil : chars ≠ []
  no_slash : '/' ∉ chars
  not_dots : isDots chars = false

/-- What `scan_one_node` appends for the names on the way down. -/
def appended (names : List Name) : Path := names.flatMap fun name => '/' :: name.chars

/-- The path that `realpath` returns for the node with the given names from the root directory. -/
def canonical : List Name → Path
  | [] => ['/']
  | names => appended names

/-- A scan comes from one job to another by directory entries with the given names. -/
inductive Descends (data : ScanData) : List Name → ScanData → Prop where

  | refl : Descends data [] data

  | child {names : List Name} {c : ScanData} {name : Name} {node : FsNode} :
      Descends data names c → c.child (name.chars, node) ∈ c.children →
      Descends data (names ++ [name]) (c.child (name.chars, node))

variable {data c c₁ c₂ : ScanData} {names names' top between rel : List Name} {name : Name}
  {id₁ id₂ : ScanId} {t₁ t₂ : FsNode}

@[simp] theorem appended_append :
    appended (names ++ names') = appended names ++ appended names' := List.flatMap_append

@[simp] theorem appended_cons :
    appended (name :: names) = '/' :: name.chars ++ appended names := rfl

theorem appended_eq_joined : appended names = Components.joined '/' (names.map Name.chars) := by
  rw [appended, Components.joined, List.flatMap_map]

theorem clean_chars : Components.Clean '/' (names.map Name.chars) := by
  intro c hc
  obtain ⟨name, -, rfl⟩ := List.mem_map.mp hc
  exact name.no_slash

theorem map_chars_inj : names.map Name.chars = names'.map Name.chars ↔ names = names' :=
  (List.map_injective_iff.mpr fun _ _ h => Name.ext h).eq_iff

/-- With a slash behind it, the path of a node is a prefix of the paths of the nodes below it. -/
theorem appended_prefix_iff :
    appended names ++ ['/'] <+: appended names' ↔ ∃ name rest, names' = names ++ name :: rest := by
  rw [appended_eq_joined, appended_eq_joined, Components.joined_prefix_iff clean_chars clean_chars]
  constructor
  · rintro ⟨d, rest, h⟩
    obtain ⟨upper, lower, rfl, hu, hl⟩ := List.map_eq_append_iff.mp h
    obtain ⟨name, rest, rfl, -⟩ := List.map_eq_cons_iff.mp hl
    obtain rfl := map_chars_inj.mp hu
    exact ⟨name, rest, rfl⟩
  · rintro ⟨name, rest, rfl⟩
    exact ⟨name.chars, rest.map Name.chars, by simp⟩

theorem appended_inj : appended names = appended names' ↔ names = names' := by
  rw [appended_eq_joined, appended_eq_joined, Components.joined_inj clean_chars clean_chars,
    map_chars_inj]

theorem appended_eq_nil_iff : appended names = [] ↔ names = [] := by
  rw [appended_eq_joined, Components.joined_eq_nil_iff, List.map_eq_nil_iff]

@[simp] theorem canonical_nil : canonical [] = ['/'] := rfl

theorem canonical_of_ne_nil (h : names ≠ []) : canonical names = appended names := by
  cases names with
  | nil => exact absurd rfl h
  | cons name names => rfl

/-- Only the root directory has the path of one slash. -/
theorem canonical_eq_root_iff : canonical names = ['/'] ↔ names = [] := by
  constructor
  · intro h
    cases names with
    | nil => rfl
    | cons name names =>
      rw [canonical_of_ne_nil (List.cons_ne_nil _ _), appended_cons, List.cons_append,
        List.cons.injEq] at h
      exact absurd (List.append_eq_nil_iff.mp h.2).1 name.ne_nil
  · rintro rfl
    rfl

theorem canonical_inj : canonical names = canonical names' ↔ names = names' := by
  constructor
  · intro h
    rcases eq_or_ne names [] with rfl | hn
    · exact (canonical_eq_root_iff.mp h.symm).symm
    rcases eq_or_ne names' [] with rfl | hn'
    · exact canonical_eq_root_iff.mp h
    · rwa [canonical_of_ne_nil hn, canonical_of_ne_nil hn', appended_inj] at h
  · rintro rfl
    rfl

theorem Descends.path_eq (h : Descends data names c) : c.path = data.path ++ appended names := by
  induction h with
  | refl => simp [appended]
  | child _ _ ih => simp [ScanData.child, ih, appended]

/-- No name starts with a slash. -/
theorem not_double_slash : ¬['/', '/'] <+: appended names := by
  cases names with
  | nil => simp [appended]
  | cons name names =>
    rintro ⟨rest, h⟩
    cases hn : name.chars with
    | nil => exact name.ne_nil hn
    | cons x xs =>
      rw [appended_cons, hn] at h
      obtain rfl : '/' = x := (List.cons.inj (List.cons.inj h).2).1
      exact name.no_slash (hn ▸ List.mem_cons_self)

theorem not_root_slash_prefix : ¬canonical [] ++ ['/'] <+: canonical names := by
  rcases eq_or_ne names [] with rfl | hn
  · decide
  · rw [canonical_of_ne_nil hn]
    exact not_double_slash

/-- The nodes whose paths go on with a slash behind the path `top`, which is empty for the root
directory. -/
theorem appended_slash_prefix_iff : appended top ++ ['/'] <+: canonical names ↔
    (top = [] ∧ names = []) ∨ ∃ name rest, names = top ++ name :: rest := by
  rcases eq_or_ne names [] with rfl | hn
  · constructor
    · intro h
      have hlen := h.length_le
      simp only [List.length_append, List.length_singleton, canonical_nil] at hlen
      exact .inl ⟨appended_eq_nil_iff.mp (List.eq_nil_of_length_eq_zero (by omega)), rfl⟩
    · rintro (⟨rfl, -⟩ | ⟨name, rest, h⟩)
      · exact List.prefix_rfl
      · simp at h
  · rw [canonical_of_ne_nil hn, appended_prefix_iff]
    simp [hn]

theorem canonical_slash_prefix_iff :
    canonical top ++ ['/'] <+: canonical names ↔
      top ≠ [] ∧ ∃ name rest, names = top ++ name :: rest := by
  rcases eq_or_ne top [] with rfl | ht
  · simpa using not_root_slash_prefix
  · rw [canonical_of_ne_nil ht, appended_slash_prefix_iff]
    simp [ht]

/-- A scan records the canonical path of every node below its root unless that is the root
directory. -/
theorem Descends.canonical_iff (h : Descends ⟨id₁, canonical top, t₁⟩ rel c) (hrel : rel ≠ []) :
    c.event.path = canonical (top ++ rel) ↔ canonical top ≠ ['/'] := by
  have hpath := h.path_eq
  rw [ScanData.event_path, hpath, Ne, canonical_eq_root_iff]
  cases top with
  | nil =>
    simp [canonical_of_ne_nil hrel]
  | cons name top => simp [canonical_of_ne_nil]

/-- For a node below an inner root, the scans of an outer root and of the inner one record the same
path, and `mark_deleted` of the outer scan concerns the row under that path, exactly if the outer
root is not the root directory. -/
theorem recorded_path_iff (hbetween : between ≠ [])
    (h₁ : Descends ⟨id₁, canonical top, t₁⟩ (between ++ rel) c₁)
    (h₂ : Descends ⟨id₂, canonical (top ++ between), t₂⟩ rel c₂) :
    (c₁.event.path = c₂.event.path ↔ canonical top ≠ ['/']) ∧
      c₂.event.path = canonical (top ++ between ++ rel) ∧
      ((∀ x ∈ canonical top, ¬Glob.IsMeta x) →
        (glob (canonical top ++ ['/', '*']) c₂.event.path = true ↔ canonical top ≠ ['/'])) := by
  have hinner : c₂.event.path = canonical (top ++ between ++ rel) := by
    have hne : top ++ between ≠ [] := fun he => hbetween (List.append_eq_nil_iff.mp he).2
    have hpath := h₂.path_eq
    rw [ScanData.event_path, hpath, canonical_of_ne_nil hne, ← appended_append,
      canonical_of_ne_nil fun he => hne (List.append_eq_nil_iff.mp he).1]
  have hdown : between ++ rel ≠ [] := fun he => hbetween (List.append_eq_nil_iff.mp he).1
  have houter := h₁.canonical_iff hdown
  refine ⟨?_, hinner, fun hmeta => ?_⟩
  · rw [hinner, houter.symm, List.append_assoc]
  · have hpattern : canonical top ++ ['/', '*'] = (canonical top ++ ['/']) ++ ['*'] := by simp
    rw [hpattern, glob_append_star, hinner]
    · rw [List.append_assoc, Ne, canonical_eq_root_iff]
      constructor
      · rintro hp rfl
        rw [List.nil_append, canonical_of_ne_nil hdown] at hp
        exact not_double_slash hp
      · intro htop
        rw [canonical_of_ne_nil htop, canonical_of_ne_nil (by simp [htop]), appended_append]
        obtain ⟨name, down, hd⟩ := List.exists_cons_of_ne_nil hdown
        rw [hd]
        exact ⟨name.chars ++ appended down, by simp⟩
    · intro x hx
      rcases List.mem_append.mp hx with hx | hx
      · exact hmeta x hx
      · rw [List.mem_singleton.mp hx]
        simp [Glob.IsMeta]

/-! ## A file two levels below the root directory -/

def nameA : Name := ⟨['a'], by decide, by decide, by decide⟩

def nameB : Name := ⟨['b'], by decide, by decide, by decide⟩

/-- A directory `a` with a file `b` in it. -/
def treeA : FsNode := .dir 0 0 [(['b'], .file 0 0)]

/-- The root directory with the directory `a`. -/
def treeRoot : FsNode := .dir 0 0 [(['a'], treeA)]

/-- The job for `b` that comes from a job for `a`. -/
theorem descends_b {data : ScanData} {names : List Name} (h : Descends data names c)
    (hc : c.node = treeA) : Descends data (names ++ [nameB]) (c.child (['b'], .file 0 0)) :=
  have hchild : c.child (nameB.chars, .file 0 0) ∈ c.children := by
    simp [ScanData.children, hc, treeA, nameB, isDots]
  .child h hchild

/-- The scan of `/a` and the scan of the file `/a/b` itself record the same path for it. -/
theorem recorded_path_nested :
    let c : ScanData := ⟨1, ['/', 'a', '/', 'b'], .file 0 0⟩
    let c' : ScanData := ⟨2, canonical [nameA, nameB], .file 0 0⟩
    canonical [nameA] ≠ ['/'] ∧ c.event.path = c'.event.path := by
  intro c c'
  have hc : Descends ⟨1, canonical [nameA], treeA⟩ [nameB] c := descends_b .refl rfl
  have hc' : Descends ⟨2, canonical [nameA, nameB], .file 0 0⟩ [] c' := .refl
  have hne : canonical [nameA] ≠ ['/'] := by decide
  exact ⟨hne, (recorded_path_iff (List.cons_ne_nil nameB []) hc hc').1.mpr hne⟩

/-- The scan of the root directory records another path for the file than the scan of `/a`. -/
theorem recorded_path_differs :
    ∃ c₁ c₂, Descends ⟨1, canonical [], treeRoot⟩ [nameA, nameB] c₁ ∧
      Descends ⟨2, canonical [nameA], treeA⟩ [nameB] c₂ ∧
      c₁.event.path = ['/', '/', 'a', '/', 'b'] ∧ c₂.event.path = ['/', 'a', '/', 'b'] := by
  have hchild : (⟨1, canonical [], treeRoot⟩ : ScanData).child (nameA.chars, treeA) ∈
      (⟨1, canonical [], treeRoot⟩ : ScanData).children := by
    simp [ScanData.children, treeRoot, nameA, isDots]
  exact ⟨_, _, descends_b (.child .refl hchild) rfl, descends_b .refl rfl, rfl, rfl⟩

end ScanDaemon
