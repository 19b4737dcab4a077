import ScanDaemon.Database.FolderSummary
import ScanDaemon.Database.Statements

/-! # The summary by extension

`upsert` stores with each row what follows the last dot of the whole path, and
`group_by_extension` groups the files under a root by that column. The dot may
be in the name of a directory, and the root is put into a pattern as it is.
-/

namespace ScanDaemon

open Relational

namespace IndexReader

variable (root : Path) (current : Table Path CurrentRow)

/-- The group of a row in `stmt_group_by_extension_`. -/
def extensionGroup (p : Path) (r : CurrentRow) : Option (List Char) :=
  if glob (root ++ ['/', '*']) p ∧ r.nodeType = .file then some r.extension else none

def extensionCount (extension : List Char) : ℕ :=
  current.groupCount (extensionGroup root) extension

def extensionSize (extension : List Char) : ℤ :=
  current.groupSum (extensionGroup root) (fun r => r.msize) extension

/-- The groups of `stmt_group_by_extension_` in some order. -/
structure Groups (extensions : List (List Char)) : Prop where
  nodup : extensions.Nodup
  mem : ∀ extension, extension ∈ extensions ↔
    ∃ p r, current.find p = some r ∧ extensionGroup root p r = some extension

/-- The loop over the groups, which ends where `SUM` leaves the range of an integer and the step
fails. -/
def groupByExtension (extensions : List (List Char)) : Table (List Char) (ℤ × ℕ) :=
  (extensions.takeWhile fun e =>
      extensionSize root current e = int64 (extensionSize root current e)).foldl
    (fun msizeMap e => msizeMap.replace e
      (int32 (extensionCount root current e), uint64 (extensionSize root current e))) ∅

end IndexReader

open IndexReader IndexWriter

variable {root p u v : Path} {c : Char} {s key : List Char} {r : CurrentRow}
  {db : Database} {current : Table Path CurrentRow} {extensions : List (List Char)}

/-! ## Extensions -/

/-- What follows the last `c`. -/
def afterLast (c : Char) (s : List Char) : List Char := (s.reverse.takeWhile (· ≠ c)).reverse

/-- The name of a node is the last component of its path. -/
def lastComponent (p : Path) : List Char := afterLast '/' p

theorem not_mem_afterLast : c ∉ afterLast c s := by
  intro h
  simpa using List.mem_takeWhile_imp (List.mem_reverse.mp h)

theorem afterLast_of_not_mem (h : c ∉ s) : afterLast c s = s := by
  rw [afterLast, List.takeWhile_eq_self_iff.mpr, List.reverse_reverse]
  intro x hx
  simpa using fun he : x = c => h (he ▸ List.mem_reverse.mp hx)

theorem afterLast_append (h : c ∉ v) : afterLast c (u ++ c :: v) = v := by
  have hrev : (u ++ c :: v).reverse = v.reverse ++ c :: u.reverse := by simp
  rw [afterLast, hrev, List.takeWhile_append_of_pos]
  · simp
  · intro x hx
    simpa using fun he : x = c => h (he ▸ List.mem_reverse.mp hx)

theorem exists_afterLast (h : c ∈ s) : ∃ u, s = u ++ c :: afterLast c s := by
  obtain ⟨v, u, hv, hnot⟩ := List.eq_append_cons_of_mem (List.mem_reverse.mpr h)
  have hs : s = u.reverse ++ c :: v.reverse := by
    rw [← List.reverse_reverse s, hv]
    simp
  refine ⟨u.reverse, ?_⟩
  conv_rhs => rw [hs, afterLast_append (by simpa using hnot)]
  exact hs

theorem getExtension_eq : getExtension p = if '.' ∈ p then afterLast '.' p else [] := rfl

theorem afterLast_append_of_mem (h : c ∈ v) : afterLast c (u ++ v) = afterLast c v := by
  obtain ⟨x, hx⟩ := exists_afterLast h
  conv_lhs => rw [hx, ← List.append_assoc, afterLast_append not_mem_afterLast]

/-- The extension of a path is the one of its last component exactly if that has a dot or no
component has one. -/
theorem getExtension_eq_own_iff :
    getExtension p = getExtension (lastComponent p) ↔ '.' ∈ lastComponent p ∨ '.' ∉ p := by
  by_cases hdot : '.' ∈ p
  · by_cases hlast : '.' ∈ lastComponent p
    · refine iff_of_true ?_ (.inl hlast)
      rw [getExtension_eq, getExtension_eq, if_pos hdot, if_pos hlast]
      by_cases hslash : '/' ∈ p
      · obtain ⟨u, hu⟩ := exists_afterLast hslash
        have hsplit : p = (u ++ ['/']) ++ lastComponent p := by
          rw [List.append_assoc]
          exact hu
        conv_lhs => rw [hsplit, afterLast_append_of_mem hlast]
      · rw [lastComponent, afterLast_of_not_mem hslash]
    · refine iff_of_false (fun he => ?_) (by simp [hlast, hdot])
      -- nothing follows the last dot, so the path ends with it, and so does its last component
      rw [getExtension_eq, getExtension_eq, if_pos hdot, if_neg hlast] at he
      obtain ⟨u, hu⟩ := exists_afterLast hdot
      rw [he] at hu
      apply hlast
      rw [hu, lastComponent, afterLast, List.reverse_append, List.mem_reverse]
      simp
  · have hlast : '.' ∉ lastComponent p := fun h =>
      hdot (List.mem_reverse.mp ((List.takeWhile_prefix _).subset (List.mem_reverse.mp h)))
    refine iff_of_true ?_ (.inr hdot)
    rw [getExtension_eq, getExtension_eq, if_neg hdot, if_neg hlast]

/-! ## The summary -/

/-- The row is the one of a file under the root. -/
def FileBelow (root p : Path) (r : CurrentRow) : Prop := r.nodeType = .file ∧ root ++ ['/'] <+: p

/-- The files under the root whose names have an extension. -/
def FilesWith (root : Path) (current : Table Path CurrentRow) (extension : List Char)
    (S : Finset Path) : Prop :=
  ∀ p, p ∈ S ↔ ∃ r, current.find p = some r ∧ FileBelow root p r ∧
    getExtension (lastComponent p) = extension

/-- The groups of the statement are those of the names' extensions. -/
def GroupsFiles (root : Path) (current : Table Path CurrentRow) : Prop :=
  ∀ p r key, current.find p = some r → (extensionGroup root p r = some key ↔
    FileBelow root p r ∧ key = getExtension (lastComponent p))

/-- The keys have no slash, the files under the root are grouped by the extensions of their names,
and the counts and sizes are those of the groups and add up. -/
structure SummarisesExtensions (root : Path) (current : Table Path CurrentRow)
    (msizeMap : Table (List Char) (ℤ × ℕ)) : Prop where
  no_slash : ∀ key ∈ msizeMap.keys, '/' ∉ key
  grouped : GroupsFiles root current
  value : ∀ key S, FilesWith root current key S → ∀ x, msizeMap.find key = some x →
    x.1 = S.card ∧ (x.2 : ℤ) = ∑ p ∈ S, msizeAt current p
  covered : ∀ key S, FilesWith root current key S → S.Nonempty → key ∈ msizeMap.keys
  total : ∀ S, (∀ p, p ∈ S ↔ ∃ r, current.find p = some r ∧ FileBelow root p r) →
    msizeMap.sum (fun _ _ => true) Prod.fst = S.card ∧
      msizeMap.sum (fun _ _ => true) (fun x => x.2) = ∑ p ∈ S, msizeAt current p

/-- Of the files, the pattern selects those under the root. -/
def SelectsFiles (root : Path) (current : Table Path CurrentRow) : Prop :=
  ∀ p r, current.find p = some r → r.nodeType = .file →
    (glob (root ++ ['/', '*']) p = true ↔ root ++ ['/'] <+: p)

/-- A file under the root has a dot in its name, or there is none in its path. -/
def DotsInNames (root : Path) (current : Table Path CurrentRow) : Prop :=
  ∀ p r, current.find p = some r → FileBelow root p r → '.' ∈ lastComponent p ∨ '.' ∉ p

/-- An `int` holds the number of files with an extension and an integer of SQLite their size. -/
def FitsExtensions (root : Path) (current : Table Path CurrentRow) : Prop :=
  ∀ key S, FilesWith root current key S →
    S.card < 2 ^ 31 ∧ 0 ≤ ∑ p ∈ S, msizeAt current p ∧ ∑ p ∈ S, msizeAt current p < 2 ^ 63

theorem groupsFiles_iff (h : db.Built) : GroupsFiles root db.indexCurrent ↔
    SelectsFiles root db.indexCurrent ∧ DotsInNames root db.indexCurrent := by
  constructor
  · intro hgroups
    have hselects : SelectsFiles root db.indexCurrent := by
      intro p r hr hfile
      constructor
      · intro hg
        have hsome : extensionGroup root p r = some r.extension := if_pos ⟨hg, hfile⟩
        exact ((hgroups p r _ hr).mp hsome).1.2
      · intro hbelow
        have hsome := (hgroups p r _ hr).mpr ⟨⟨hfile, hbelow⟩, rfl⟩
        by_contra hg
        rw [extensionGroup, if_neg fun hs => hg hs.1] at hsome
        cases hsome
    refine ⟨hselects, fun p r hr hbelow => ?_⟩
    have hsome : extensionGroup root p r = some r.extension :=
      if_pos ⟨(hselects p r hr hbelow.1).mpr hbelow.2, hbelow.1⟩
    have hown := ((hgroups p r _ hr).mp hsome).2
    rw [h.extension hr] at hown
    exact getExtension_eq_own_iff.mp hown
  · rintro ⟨hselects, hdots⟩ p r key hr
    rw [extensionGroup, h.extension hr]
    constructor
    · intro hk
      split_ifs at hk with hg
      have hbelow : FileBelow root p r := ⟨hg.2, (hselects p r hr hg.2).mp hg.1⟩
      refine ⟨hbelow, ?_⟩
      rw [← getExtension_eq_own_iff.mpr (hdots p r hr hbelow), Option.some.inj hk]
    · rintro ⟨hbelow, rfl⟩
      rw [if_pos ⟨(hselects p r hr hbelow.1).mpr hbelow.2, hbelow.1⟩,
        getExtension_eq_own_iff.mpr (hdots p r hr hbelow)]

theorem find_groupByExtension : (groupByExtension root current extensions).find key =
    if key ∈ extensions.takeWhile
        fun e => extensionSize root current e = int64 (extensionSize root current e) then
      some (int32 (extensionCount root current key), uint64 (extensionSize root current key))
    else none := by
  rw [groupByExtension, find_foldl_replace]
  split_ifs <;> rfl

theorem GroupsFiles.filesWith (h : GroupsFiles root current) : FilesWith root current key
    (current.select fun p r => extensionGroup root p r = some key) := by
  intro p
  rw [Table.mem_select]
  refine exists_congr fun r => and_congr_right fun hr => ?_
  rw [decide_eq_true_eq, h p r key hr, eq_comm (a := key)]

theorem FilesWith.unique {S T : Finset Path} (hS : FilesWith root current key S)
    (hT : FilesWith root current key T) : S = T := by
  ext p
  rw [hS p, hT p]

theorem GroupsFiles.count_eq (h : GroupsFiles root current) {S : Finset Path}
    (hS : FilesWith root current key S) : extensionCount root current key = S.card := by
  rw [hS.unique h.filesWith]
  rfl

theorem GroupsFiles.size_eq (h : GroupsFiles root current) {S : Finset Path}
    (hS : FilesWith root current key S) :
    extensionSize root current key = ∑ p ∈ S, msizeAt current p := by
  rw [hS.unique h.filesWith]
  rfl

/-- The integers that `SUM` can deliver and a `uint64_t` can hold. -/
theorem int64_uint64_eq_self_iff {n : ℤ} :
    n = int64 n ∧ (uint64 n : ℤ) = n ↔ 0 ≤ n ∧ n < 2 ^ 63 := by
  rw [uint64_cast, int64]
  constructor
  · rintro ⟨h, hmod⟩
    have hlt : n.bmod (2 ^ 64) < (2 ^ 64 + 1) / 2 := Int.bmod_lt (by decide)
    omega
  · rintro ⟨hpos, hlt⟩
    refine ⟨?_, by omega⟩
    rw [Int.bmod_eq_of_le_mul_two] <;> omega

theorem not_mem_extension : '/' ∉ getExtension (lastComponent p) := by
  rw [getExtension_eq]
  split_ifs with hdot
  · obtain ⟨u, hu⟩ := exists_afterLast hdot
    intro h
    have hmem : '/' ∈ lastComponent p := by
      rw [hu]
      simp [h]
    exact not_mem_afterLast hmem
  · exact List.not_mem_nil

/-- The summary by extension is right exactly if the pattern selects the files under the root,
the last dot of their paths is in their names, and the counts and sizes fit. -/
theorem extension_summary_iff (root : Path) (db : Database) (extensions : List (List Char))
    (h : db.Built) (hgroups : Groups root db.indexCurrent extensions) :
    SummarisesExtensions root db.indexCurrent
        (groupByExtension root db.indexCurrent extensions) ↔
      (SelectsFiles root db.indexCurrent ∧ DotsInNames root db.indexCurrent) ∧
        FitsExtensions root db.indexCurrent := by
  rw [← groupsFiles_iff h]
  generalize db.indexCurrent = current at *
  constructor
  · rintro ⟨-, hg, hvalue, hcovered, -⟩
    refine ⟨hg, fun key S hS => ?_⟩
    rcases S.eq_empty_or_nonempty with rfl | hne
    · simp
    have hfind : (groupByExtension root current extensions).find key = _ :=
      find_groupByExtension
    have hkey := hcovered key S hS hne
    rw [Table.mem_keys, hfind] at hkey
    split_ifs at hkey hfind with hmem
    · obtain ⟨hcount, hsize⟩ := hvalue key S hS _ hfind
      have hstep := List.mem_takeWhile_imp hmem
      dsimp only at hcount hsize
      rw [hg.count_eq hS] at hcount
      rw [hg.size_eq hS] at hsize hstep
      exact ⟨int32_eq_self_iff.mp hcount,
        int64_uint64_eq_self_iff.mp ⟨of_decide_eq_true hstep, hsize⟩⟩
    · cases hkey
  · rintro ⟨hg, hfits⟩
    have hfit : ∀ key, extensionCount root current key < 2 ^ 31 ∧
        0 ≤ extensionSize root current key ∧ extensionSize root current key < 2 ^ 63 := by
      intro key
      rw [hg.count_eq hg.filesWith, hg.size_eq hg.filesWith]
      exact hfits key _ hg.filesWith
    have hall : (extensions.takeWhile fun e =>
        extensionSize root current e = int64 (extensionSize root current e)) = extensions := by
      rw [List.takeWhile_eq_self_iff]
      intro key _
      exact decide_eq_true (int64_uint64_eq_self_iff.mpr (hfit key).2).1
    have hfind : ∀ key, (groupByExtension root current extensions).find key =
        if key ∈ extensions then
          some (int32 (extensionCount root current key), uint64 (extensionSize root current key))
        else none := by
      intro key
      rw [find_groupByExtension, hall]
    have hkeys : ∀ key, key ∈ (groupByExtension root current extensions).keys ↔
        key ∈ extensions := by
      intro key
      rw [Table.mem_keys, hfind]
      split_ifs with hk <;> simp [hk]
    have hcast : ∀ key, int32 (extensionCount root current key) = extensionCount root current key ∧
        (uint64 (extensionSize root current key) : ℤ) = extensionSize root current key := fun key =>
      ⟨int32_eq_self_iff.mpr (hfit key).1, (int64_uint64_eq_self_iff.mpr (hfit key).2).2⟩
    refine ⟨fun key hkey => ?_, hg, fun key S hS x hx => ?_, fun key S hS hne => ?_, fun S hS => ?_⟩
    · obtain ⟨p, r, hr, hk⟩ := (hgroups.mem key).mp ((hkeys key).mp hkey)
      rw [((hg p r key hr).mp hk).2]
      exact not_mem_extension
    · rw [hfind] at hx
      split_ifs at hx
      obtain rfl := Option.some.inj hx
      dsimp only
      rw [← hg.count_eq hS, ← hg.size_eq hS]
      exact hcast key
    · rw [hkeys, hgroups.mem]
      obtain ⟨p, hp⟩ := hne
      obtain ⟨r, hr, hbelow, hown⟩ := (hS p).mp hp
      exact ⟨p, r, hr, (hg p r key hr).mpr ⟨hbelow, hown.symm⟩⟩
    · have hfiles : S = current.select fun p r => (extensionGroup root p r).isSome := by
        ext p
        rw [hS, Table.mem_select]
        refine exists_congr fun r => and_congr_right fun hr => ?_
        rw [Option.isSome_iff_exists]
        constructor
        · intro hbelow
          exact ⟨_, (hg p r _ hr).mpr ⟨hbelow, rfl⟩⟩
        · rintro ⟨key, hk⟩
          exact ((hg p r key hr).mp hk).1
      have hin : ∀ p r key, current.find p = some r → extensionGroup root p r = some key →
          key ∈ (groupByExtension root current extensions).keys :=
        fun p r key hr hk => (hkeys key).mpr ((hgroups.mem key).mpr ⟨p, r, hr, hk⟩)
      have hsum : ∀ f : ℤ × ℕ → ℤ,
          (groupByExtension root current extensions).sum (fun _ _ => true) f =
            ∑ key ∈ (groupByExtension root current extensions).keys,
              f (extensionCount root current key, uint64 (extensionSize root current key)) := by
        intro f
        rw [Table.sum_true]
        refine Finset.sum_congr rfl fun key hkey => ?_
        rw [hfind, if_pos ((hkeys key).mp hkey), Option.elim_some, (hcast key).1]
      rw [hsum, hsum]
      constructor
      · rw [← Nat.cast_sum, hfiles]
        exact congrArg Nat.cast (Table.sum_groupCount hin)
      · rw [hfiles]
        calc ∑ key ∈ (groupByExtension root current extensions).keys,
              (uint64 (extensionSize root current key) : ℤ)
            = ∑ key ∈ (groupByExtension root current extensions).keys,
                current.groupSum (extensionGroup root) (fun r => r.msize) key :=
              Finset.sum_congr rfl fun key _ => (hcast key).2
          _ = current.sum (fun p r => (extensionGroup root p r).isSome) fun r => r.msize :=
              Table.sum_groupSum hin

/-! ## Some files -/

/-- The event of a file of one block. -/
def fileEvent (p : Path) : FileEvent := (⟨1, p, .file 0 1⟩ : ScanData).event

/-- The tables after the events of these files, the last of the list first. -/
def filesAt (paths : List Path) : Database :=
  paths.foldr (fun p db => db.upsert (fileEvent p)) Database.empty

theorem built_filesAt (paths : List Path) : (filesAt paths).Built := by
  induction paths with
  | nil => exact .empty
  | cons p paths ih => exact ih.upsert

theorem find_filesAt {paths : List Path} : (filesAt paths).indexCurrent.find p = some r ↔
    p ∈ paths ∧ r = ⟨(fileEvent p).row, int64 1⟩ := by
  induction paths with
  | nil => exact iff_of_false nofun fun h => List.not_mem_nil h.1
  | cons q paths ih =>
    have hcons : filesAt (q :: paths) = (filesAt paths).upsert (fileEvent q) := rfl
    have hpath : (fileEvent q).path = q := rfl
    rw [hcons, Database.find_current_upsert, hpath, List.mem_cons]
    by_cases h : p = q
    · subst h
      rw [if_pos rfl, Option.some.injEq, eq_comm]
      exact (and_iff_right (.inl rfl)).symm
    · rw [if_neg h, ih, or_iff_right h]

/-- If the pattern selects the files, their extensions are the groups. -/
theorem groups_filesAt {paths : List Path} (hnodup : (paths.map getExtension).Nodup)
    (h : ∀ p ∈ paths, glob (root ++ ['/', '*']) p = true) :
    Groups root (filesAt paths).indexCurrent (paths.map getExtension) := by
  refine ⟨hnodup, fun extension => ?_⟩
  rw [List.mem_map]
  refine exists_congr fun p => ?_
  constructor
  · rintro ⟨hp, rfl⟩
    exact ⟨_, find_filesAt.mpr ⟨hp, rfl⟩, if_pos ⟨h p hp, rfl⟩⟩
  · rintro ⟨r, hr, hg⟩
    obtain ⟨hp, rfl⟩ := find_filesAt.mp hr
    rw [extensionGroup, if_pos ⟨h p hp, rfl⟩] at hg
    exact ⟨hp, Option.some.inj hg⟩

/-- The size of a file of one block. -/
theorem msizeAt_filesAt {paths : List Path} (h : p ∈ paths) :
    msizeAt (filesAt paths).indexCurrent p = 512 := by
  have hsize : (fileEvent p).row.msize = int64 (512 : ℕ) := rfl
  rw [msizeAt, find_filesAt.mpr ⟨h, rfl⟩, Option.elim_some, hsize]
  exact int64_eq_self (by decide)

/-- The two files `b.c` and `d.t` in the directory `/a`. -/
def filesInA : List Path := [['/', 'a', '/', 'b', '.', 'c'], ['/', 'a', '/', 'd', '.', 't']]

/-- The summary of a directory with two files of different extensions is right. -/
theorem extension_summary_file :
    let current := (filesAt filesInA).indexCurrent
    SummarisesExtensions ['/', 'a'] current
      (groupByExtension ['/', 'a'] current [['c'], ['t']]) := by
  intro current
  have hgroups : Groups ['/', 'a'] current [['c'], ['t']] :=
    @groups_filesAt _ filesInA (by decide) (by decide)
  refine (extension_summary_iff _ _ _ (built_filesAt _) hgroups).mpr ⟨⟨?_, ?_⟩, ?_⟩
  · intro p r hr _
    have hselected : ∀ p ∈ filesInA, glob (['/', 'a'] ++ ['/', '*']) p = true ∧
        ['/', 'a'] ++ ['/'] <+: p := by decide
    obtain ⟨hg, hbelow⟩ := hselected p (find_filesAt.mp hr).1
    exact iff_of_true hg hbelow
  · intro p r hr _
    have hdots : ∀ p ∈ filesInA, '.' ∈ lastComponent p := by decide
    exact .inl (hdots p (find_filesAt.mp hr).1)
  · intro key S hS
    have hfiles : ∀ p ∈ S, p ∈ filesInA := by
      intro p hp
      obtain ⟨r, hr, -⟩ := (hS p).mp hp
      exact (find_filesAt.mp hr).1
    have hcard : S.card ≤ 2 := by
      calc S.card ≤ filesInA.toFinset.card :=
            Finset.card_le_card fun p hp => List.mem_toFinset.mpr (hfiles p hp)
        _ = 2 := by decide
    have hsum : ∑ p ∈ S, msizeAt current p = S.card * 512 := by
      rw [Finset.sum_congr rfl fun p hp => msizeAt_filesAt (hfiles p hp), Finset.sum_const,
        nsmul_eq_mul]
    rw [hsum]
    omega

/-- The extension of a file without a dot is taken from the name of its directory. -/
theorem extension_summary_directory :
    let db := filesAt [['/', 'a', '.', 'b', '/', 'c']]
    let root := ['/', 'a', '.', 'b']
    db.Built ∧ Groups root db.indexCurrent [['b', '/', 'c']] ∧
      ¬SummarisesExtensions root db.indexCurrent
        (groupByExtension root db.indexCurrent [['b', '/', 'c']]) := by
  intro db root
  have hglob : glob (root ++ ['/', '*']) ['/', 'a', '.', 'b', '/', 'c'] = true := by decide
  have hgroups : Groups root db.indexCurrent [['b', '/', 'c']] :=
    @groups_filesAt _ [['/', 'a', '.', 'b', '/', 'c']] (by decide) (by simpa using hglob)
  refine ⟨built_filesAt _, hgroups, fun h => ?_⟩
  have hrow := find_filesAt.mpr ⟨List.mem_singleton_self ['/', 'a', '.', 'b', '/', 'c'], rfl⟩
  have hown := (h.grouped _ _ ['b', '/', 'c'] hrow).mp (if_pos ⟨hglob, rfl⟩)
  exact absurd hown.2 (by decide)

end ScanDaemon
