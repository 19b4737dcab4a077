import Mathlib.Data.List.TakeWhile
import ScanDaemon.Database.TopRoot
import ScanDaemon.Library.Grouping

/-! # The summary by folder

`group_by_folder_in_snd_layer` selects rows by the pattern `root/*`, takes the
directory below the root from the text of each path and adds up the sizes. The
rows that are selected need not be below the root, and those below the root need
not be selected. The theorem says for which rows that matters.
-/

namespace ScanDaemon

open Relational

namespace IndexReader

/-- `get_snd_layer`, whose `substr` throws behind the end of the path. -/
def getSndLayer (path root : Path) : Option Path :=
  if path.length < root.length + 1 then none else
  let afterRoot := path.drop (root.length + 1)
  some (if '/' ∈ afterRoot then root ++ '/' :: afterRoot.takeWhile (· ≠ '/') else path)

/-- The body of the loop for one row. -/
def addFolder (root : Path) (msizeMap : Table Path ℕ) (row : Path × CurrentRow) :
    Option (Table Path ℕ) := do
  let sndLayer ← getSndLayer row.1 root
  if row.1 = sndLayer ∧ row.2.nodeType ≠ .dir then
    return msizeMap
  return addUnder (2 ^ 64) msizeMap (sndLayer, uint64 row.2.msize)

/-- The loop over the rows that `stmt_group_by_folder_` delivers. -/
def groupByFolderInSndLayer (root : Path) (rows : List (Path × CurrentRow)) :
    Option (Table Path ℕ) :=
  rows.foldlM (addFolder root) ∅

/-- The rows of `stmt_group_by_folder_` in some order. -/
structure Delivered (root : Path) (current : Table Path CurrentRow)
    (rows : List (Path × CurrentRow)) : Prop where
  nodup : rows.Nodup
  mem : ∀ p r, (p, r) ∈ rows ↔ current.find p = some r ∧ glob (root ++ ['/', '*']) p = true

/-- The key under which the loop adds the size of a row; there is none for a row that it skips. -/
def folderOf (root p : Path) (r : CurrentRow) : Option Path :=
  (getSndLayer p root).filter fun sndLayer => !(p = sndLayer && r.nodeType ≠ .dir)

/-- What the loop adds for a row. -/
def contribution (root : Path) (row : Path × CurrentRow) : Option (Path × ℕ) :=
  (folderOf root row.1 row.2).map fun key => (key, uint64 row.2.msize)

end IndexReader

open IndexReader

variable {root p key : Path} {r : CurrentRow} {top names rest : List Name} {name : Name}
  {current : Table Path CurrentRow} {rows : List (Path × CurrentRow)} {l : List (Path × ℕ)}

/-! ## The loop -/

theorem addFolder_eq {t : Table Path ℕ} {row : Path × CurrentRow} :
    addFolder root t row = if row.1.length ≤ root.length then none
      else some (match contribution root row with
        | some x => addUnder (2 ^ 64) t x
        | none => t) := by
  rw [addFolder, contribution, folderOf]
  cases hs : getSndLayer row.1 root with
  | none =>
    rw [if_pos]
    · rfl
    · by_contra h
      rw [getSndLayer, if_neg (by omega)] at hs
      cases hs
  | some sndLayer =>
    have hlen : ¬row.1.length ≤ root.length := by
      intro h
      rw [getSndLayer, if_pos (by omega)] at hs
      cases hs
    rw [if_neg hlen, Option.bind_eq_bind, Option.bind_some, Option.filter_some]
    by_cases hskip : row.1 = sndLayer ∧ row.2.nodeType ≠ .dir
    · rw [if_pos hskip, if_neg (by simpa using hskip)]
      rfl
    · rw [if_neg hskip, if_pos (by simpa [imp_iff_not_or] using hskip)]
      rfl

theorem foldlM_addFolder : rows.foldlM (addFolder root) (accumulate (2 ^ 64) l) =
    if ∀ x ∈ rows, root.length < x.1.length then
      some (accumulate (2 ^ 64) (l ++ rows.filterMap (contribution root)))
    else none := by
  induction rows generalizing l with
  | nil => simp
  | cons x rows ih =>
    rw [List.foldlM_cons, addFolder_eq]
    by_cases h : x.1.length ≤ root.length
    · rw [if_pos h, if_neg]
      · rfl
      · intro hall
        exact absurd (hall x List.mem_cons_self) (not_lt.mpr h)
    · have hx : root.length < x.1.length := not_le.mp h
      rw [if_neg h, Option.bind_eq_bind, Option.bind_some]
      cases hc : contribution root x with
      | none => simp only [ih, List.forall_mem_cons, hx, true_and, List.filterMap_cons, hc]
      | some y =>
        simp only [← accumulate_concat, ih, List.forall_mem_cons, hx, true_and,
          List.filterMap_cons, hc, List.append_assoc, List.singleton_append]

/-- The loop throws exactly if a row's path is not longer than the root. -/
theorem groupByFolderInSndLayer_eq : groupByFolderInSndLayer root rows =
    if ∀ x ∈ rows, root.length < x.1.length then
      some (accumulate (2 ^ 64) (rows.filterMap (contribution root)))
    else none := foldlM_addFolder (l := [])

/-! ## What a row is counted under -/

/-- The directory below the root is cut off exactly if there is a slash behind it. -/
theorem getSndLayer_eq (h : root.length < p.length) : ∃ sndLayer,
    getSndLayer p root = some sndLayer ∧ (p = sndLayer ↔ '/' ∉ p.drop (root.length + 1)) := by
  have hlen : ¬p.length < root.length + 1 := by omega
  by_cases hs : '/' ∈ p.drop (root.length + 1)
  · refine ⟨root ++ '/' :: (p.drop (root.length + 1)).takeWhile (· ≠ '/'), ?_, ?_⟩
    · rw [getSndLayer, if_neg hlen]
      exact congrArg some (if_pos hs)
    · refine iff_of_false (fun he => ?_) (not_not.mpr hs)
      have hdrop : p.drop (root.length + 1) = (p.drop (root.length + 1)).takeWhile (· ≠ '/') := by
        conv_lhs => rw [he]
        rw [List.drop_append, List.drop_eq_nil_of_le (by omega), Nat.add_sub_cancel_left]
        rfl
      rw [hdrop] at hs
      simpa using List.mem_takeWhile_imp hs
  · refine ⟨p, ?_, iff_of_true rfl hs⟩
    rw [getSndLayer, if_neg hlen]
    exact congrArg some (if_neg hs)

theorem folderOf_isSome_iff (h : root.length < p.length) : (folderOf root p r).isSome ↔
    '/' ∈ p.drop (root.length + 1) ∨ r.nodeType = .dir := by
  obtain ⟨sndLayer, hs, hp⟩ := getSndLayer_eq h
  rw [folderOf, hs, Option.filter_some, ← not_not (a := '/' ∈ p.drop _), ← hp]
  by_cases he : p = sndLayer <;> simp [he]

/-- The key of a row below the root is the child of the root that contains it. -/
theorem folderOf_below (hroot : root = appended top) (hp : p = canonical (top ++ name :: rest)) :
    folderOf root p r =
      if rest = [] ∧ r.nodeType ≠ .dir then none else some (canonical (top ++ [name])) := by
  have hpath : p = root ++ '/' :: (name.chars ++ appended rest) := by
    rw [hp, canonical_of_ne_nil (by simp), hroot]
    simp
  have hchild : canonical (top ++ [name]) = root ++ '/' :: name.chars := by
    rw [canonical_of_ne_nil (by simp), hroot]
    simp [appended]
  have hdrop : p.drop (root.length + 1) = name.chars ++ appended rest := by
    rw [hpath, List.drop_append, List.drop_eq_nil_of_le (by omega), Nat.add_sub_cancel_left]
    rfl
  have hlen : ¬p.length < root.length + 1 := by
    rw [hpath, List.length_append, List.length_cons]
    omega
  rw [folderOf, getSndLayer, if_neg hlen, hdrop, hchild]
  cases rest with
  | nil =>
    have hno : '/' ∉ name.chars ++ appended [] := by simpa [appended] using name.no_slash
    have hpc : p = root ++ '/' :: name.chars := by simpa [appended] using hpath
    by_cases hd : r.nodeType = .dir <;> simp [hno, hd, hpc]
  | cons name' rest =>
    have hyes : '/' ∈ name.chars ++ appended (name' :: rest) := by simp
    have htake : (name.chars ++ appended (name' :: rest)).takeWhile (· ≠ '/') = name.chars := by
      rw [List.takeWhile_append_of_pos fun c hc => ?_]
      · simp
      · simpa using fun he : c = '/' => name.no_slash (he ▸ hc)
    have hne : p ≠ root ++ '/' :: name.chars := by
      rw [hpath]
      simp
    simp only [hyes, if_true, htake, Option.filter_some, hne, decide_false, Bool.false_and,
      Bool.not_false, reduceCtorEq, false_and, if_false]

/-! ## What is added under a key -/

/-- The group of a row in the summary. -/
def folderGroup (root p : Path) (r : CurrentRow) : Option Path :=
  if glob (root ++ ['/', '*']) p then folderOf root p r else none

theorem folderGroup_eq_some_iff (hrows : IndexReader.Delivered root current rows)
    (hr : current.find p = some r) :
    folderGroup root p r = some key ↔ (p, r) ∈ rows ∧ folderOf root p r = some key := by
  rw [folderGroup, hrows.mem]
  split_ifs with hg <;> simp [hg, hr]

theorem uint64_cast (n : ℤ) : (uint64 n : ℤ) = n % 2 ^ 64 := by
  rw [uint64]
  omega

theorem sum_uint64 {rows : List (Path × CurrentRow)} :
    ((rows.map fun x => uint64 x.2.msize).sum : ℤ) ≡ (rows.map fun x => x.2.msize).sum
      [ZMOD 2 ^ 64] := by
  induction rows with
  | nil => rfl
  | cons x rows ih =>
    rw [List.map_cons, List.map_cons, List.sum_cons, List.sum_cons, Nat.cast_add, uint64_cast]
    exact (Int.mod_modEq _ _).add ih

theorem amounts_contribution : amounts key (rows.filterMap (contribution root)) =
    (rows.filter fun x => folderOf root x.1 x.2 = some key).map fun x => uint64 x.2.msize := by
  induction rows with
  | nil => rfl
  | cons x rows ih =>
    rw [amounts] at ih ⊢
    cases hf : folderOf root x.1 x.2 with
    | none => simp [contribution, hf, ih]
    | some k =>
      have hc : contribution root x = some (k, uint64 x.2.msize) := by simp [contribution, hf]
      rw [List.filterMap_cons_some hc]
      by_cases hk : k = key <;> simp [hk, hf, ih]

/-- Up to a multiple of `2 ^ 64`, the loop adds up the sizes of the group. -/
theorem amounts_sum (hrows : IndexReader.Delivered root current rows) :
    ((amounts key (rows.filterMap (contribution root))).sum : ℤ) ≡
      current.groupSum (folderGroup root) (fun r => r.msize) key [ZMOD 2 ^ 64] := by
  rw [amounts_contribution]
  set own := rows.filter fun x => folderOf root x.1 x.2 = some key with hown
  have hmem : ∀ x ∈ own, current.find x.1 = some x.2 := by
    intro x hx
    exact ((hrows.mem x.1 x.2).mp (List.mem_filter.mp hx).1).1
  have hnodup : (own.map Prod.fst).Nodup := by
    refine (hrows.nodup.filter _).map_on fun x hx y hy he => ?_
    have hxy : some x.2 = some y.2 := (hmem x hx).symm.trans (he ▸ hmem y hy)
    exact Prod.ext he (Option.some.inj hxy)
  have hset : (own.map Prod.fst).toFinset =
      current.select fun p r => folderGroup root p r = some key := by
    ext p
    rw [List.mem_toFinset, List.mem_map, Table.mem_select]
    constructor
    · rintro ⟨x, hx, rfl⟩
      have hf := List.mem_filter.mp hx
      refine ⟨x.2, hmem x hx, decide_eq_true ?_⟩
      exact (folderGroup_eq_some_iff hrows (hmem x hx)).mpr ⟨hf.1, of_decide_eq_true hf.2⟩
    · rintro ⟨r, hr, hg⟩
      obtain ⟨hin, hf⟩ := (folderGroup_eq_some_iff hrows hr).mp (of_decide_eq_true hg)
      exact ⟨(p, r), List.mem_filter.mpr ⟨hin, decide_eq_true hf⟩, rfl⟩
  have hsum : current.groupSum (folderGroup root) (fun r => r.msize) key =
      (own.map fun x => x.2.msize).sum := by
    rw [Table.groupSum, Table.sum, ← hset, List.sum_toFinset _ hnodup, List.map_map]
    congr 1
    apply List.map_congr_left
    intro x hx
    simp [hmem x hx]
  rw [hsum]
  exact sum_uint64

/-! ## The summary -/

/-- The path is strictly below the node `top`. -/
def StrictlyBelow (top : List Name) (p : Path) : Prop :=
  ∃ name rest, p = canonical (top ++ name :: rest)

/-- The row is below `top` and counts for the child that contains it. A child of `top` counts for
itself if it is a directory. -/
def CountsFor (top : List Name) (p : Path) (r : CurrentRow) (key : Path) : Prop :=
  ∃ name rest, p = canonical (top ++ name :: rest) ∧ key = canonical (top ++ [name]) ∧
    (rest = [] → r.nodeType = .dir)

def msizeAt (current : Table Path CurrentRow) (p : Path) : ℤ :=
  (current.find p).elim 0 fun r => r.msize

/-- The rows that count for `key`. -/
def CountedFor (top : List Name) (current : Table Path CurrentRow) (key : Path)
    (S : Finset Path) : Prop :=
  ∀ p, p ∈ S ↔ ∃ r, current.find p = some r ∧ CountsFor top p r key

/-- The summary is made without an exception. Its keys are children of the root, the loop counts
each row below the root for the child that contains it and no other row, and the sizes add up. -/
structure SummarisesFolders (root : Path) (top : List Name) (current : Table Path CurrentRow)
    (rows : List (Path × CurrentRow)) : Prop where
  counted : ∀ p r key, current.find p = some r →
    ((p, r) ∈ rows ∧ folderOf root p r = some key ↔ CountsFor top p r key)
  summary : ∃ msizeMap, groupByFolderInSndLayer root rows = some msizeMap ∧
    (∀ key ∈ msizeMap.keys, ∃ name, key = canonical (top ++ [name])) ∧
    (∀ key S, CountedFor top current key S →
      ((msizeMap.find key).getD 0 : ℤ) = ∑ p ∈ S, msizeAt current p) ∧
    ∀ S, (∀ p, p ∈ S ↔ ∃ r key, current.find p = some r ∧ CountsFor top p r key) →
      msizeMap.sum (fun _ _ => true) Nat.cast = ∑ p ∈ S, msizeAt current p

/-- Of the rows that the loop does not skip or cannot cut, the pattern selects those below the
root. -/
def SelectsFolders (root : Path) (top : List Name) (current : Table Path CurrentRow) : Prop :=
  ∀ p r, current.find p = some r →
    p.length ≤ root.length ∨ '/' ∈ p.drop (root.length + 1) ∨ r.nodeType = .dir →
      (glob (root ++ ['/', '*']) p = true ↔ StrictlyBelow top p)

/-- The sizes below each child are counted by a `uint64_t`. -/
def FitsFolders (top : List Name) (current : Table Path CurrentRow) : Prop :=
  ∀ key S, CountedFor top current key S →
    0 ≤ ∑ p ∈ S, msizeAt current p ∧ ∑ p ∈ S, msizeAt current p < 2 ^ 64

/-- The groups of the loop are the children of the root. -/
def GroupsFolders (root : Path) (top : List Name) (current : Table Path CurrentRow) : Prop :=
  ∀ p r key, current.find p = some r → (folderGroup root p r = some key ↔ CountsFor top p r key)

section Summary

-- The path of the root directory is `/` only for the index that contains nothing else.
variable (hroot : ∀ p ∈ current.keys, StrictlyBelow top p → root = appended top)

theorem CountsFor.strictlyBelow (h : CountsFor top p r key) : StrictlyBelow top p := by
  obtain ⟨name, rest, hp, -⟩ := h
  exact ⟨name, rest, hp⟩

include hroot

theorem length_of_below (hr : current.find p = some r) (h : StrictlyBelow top p) :
    root.length < p.length := by
  obtain ⟨name, rest, rfl⟩ := h
  rw [hroot _ (Table.mem_keys_of_find hr) ⟨name, rest, rfl⟩, canonical_of_ne_nil (by simp),
    appended_append, List.length_append, appended_cons, List.cons_append, List.length_cons]
  omega

theorem folderOf_eq_some_iff (hr : current.find p = some r) (h : StrictlyBelow top p) :
    folderOf root p r = some key ↔ CountsFor top p r key := by
  obtain ⟨name, rest, hp⟩ := h
  rw [folderOf_below (hroot p (Table.mem_keys_of_find hr) ⟨name, rest, hp⟩) hp]
  constructor
  · intro hk
    split_ifs at hk with hd
    refine ⟨name, rest, hp, (Option.some.inj hk).symm, fun hrest => ?_⟩
    by_contra hne
    exact hd ⟨hrest, hne⟩
  · rintro ⟨name', rest', hp', rfl, hdir⟩
    have hnames := canonical_inj.mp (hp.symm.trans hp')
    obtain ⟨rfl, rfl⟩ := List.cons.inj (List.append_cancel_left hnames)
    rw [if_neg]
    rintro ⟨hrest, hne⟩
    exact hne (hdir hrest)

theorem SelectsFolders.groups (h : SelectsFolders root top current) :
    GroupsFolders root top current := by
  intro p r key hr
  rw [folderGroup]
  constructor
  · intro hk
    split_ifs at hk with hg
    have hbelow : StrictlyBelow top p := by
      refine (h p r hr ?_).mp hg
      by_cases hlen : p.length ≤ root.length
      · exact .inl hlen
      · exact .inr ((folderOf_isSome_iff (not_le.mp hlen)).mp (by rw [hk]; rfl))
    exact (folderOf_eq_some_iff hroot hr hbelow).mp hk
  · intro hc
    have hbelow := hc.strictlyBelow
    have hk := (folderOf_eq_some_iff hroot hr hbelow).mpr hc
    have hg : glob (root ++ ['/', '*']) p = true := by
      refine (h p r hr (.inr ?_)).mpr hbelow
      exact (folderOf_isSome_iff (length_of_below hroot hr hbelow)).mp (by rw [hk]; rfl)
    rw [if_pos hg, hk]

theorem GroupsFolders.selects (h : GroupsFolders root top current)
    (hlen : ∀ p r, current.find p = some r → glob (root ++ ['/', '*']) p = true →
      root.length < p.length) : SelectsFolders root top current := by
  intro p r hr hmatters
  constructor
  · intro hg
    have hl := hlen p r hr hg
    have hsome := (folderOf_isSome_iff hl).mpr (hmatters.resolve_left (not_le.mpr hl))
    obtain ⟨key, hk⟩ := Option.isSome_iff_exists.mp hsome
    have hgroup : folderGroup root p r = some key := by rw [folderGroup, if_pos hg, hk]
    exact ((h p r key hr).mp hgroup).strictlyBelow
  · intro hbelow
    have hl := length_of_below hroot hr hbelow
    have hsome := (folderOf_isSome_iff hl).mpr (hmatters.resolve_left (not_le.mpr hl))
    obtain ⟨key, hk⟩ := Option.isSome_iff_exists.mp hsome
    have hgroup := (h p r key hr).mpr ((folderOf_eq_some_iff hroot hr hbelow).mp hk)
    by_contra hg
    rw [folderGroup, if_neg hg] at hgroup
    cases hgroup

omit hroot

theorem GroupsFolders.countedFor (h : GroupsFolders root top current) :
    CountedFor top current key (current.select fun p r => folderGroup root p r = some key) := by
  intro p
  rw [Table.mem_select]
  refine exists_congr fun r => and_congr_right fun hr => ?_
  rw [decide_eq_true_eq, h p r key hr]

theorem CountedFor.unique {S T : Finset Path} (hS : CountedFor top current key S)
    (hT : CountedFor top current key T) : S = T := by
  ext p
  rw [hS p, hT p]

/-- Each value of the map is the sum of the group up to a multiple of `2 ^ 64`. -/
theorem value_accumulate (hrows : IndexReader.Delivered root current rows) :
    (((accumulate (2 ^ 64) (rows.filterMap (contribution root))).find key).getD 0 : ℤ) =
      current.groupSum (folderGroup root) (fun r => r.msize) key % 2 ^ 64 := by
  have hmod : ((amounts key (rows.filterMap (contribution root))).sum : ℤ) ≡ _ [ZMOD _] :=
    amounts_sum hrows
  rw [← hmod, find_accumulate]
  split_ifs with hmem
  · rw [Option.getD_some]
    norm_cast
  · have hnil : amounts key (rows.filterMap (contribution root)) = [] := by
      rw [amounts, List.map_eq_nil_iff, List.filter_eq_nil_iff]
      intro x hx he
      exact hmem (List.mem_map.mpr ⟨x, hx, of_decide_eq_true he⟩)
    simp [hnil]

/-- The keys of the map are the groups of the rows. -/
theorem mem_keys_folders (hrows : IndexReader.Delivered root current rows) :
    key ∈ (accumulate (2 ^ 64) (rows.filterMap (contribution root))).keys ↔
      ∃ p r, current.find p = some r ∧ folderGroup root p r = some key := by
  rw [mem_keys_accumulate, List.mem_map]
  constructor
  · rintro ⟨y, hy, rfl⟩
    obtain ⟨⟨p, r⟩, hx, hc⟩ := List.mem_filterMap.mp hy
    obtain ⟨key, hk, rfl⟩ := Option.map_eq_some_iff.mp hc
    have hr := ((hrows.mem p r).mp hx).1
    exact ⟨p, r, hr, (folderGroup_eq_some_iff hrows hr).mpr ⟨hx, hk⟩⟩
  · rintro ⟨p, r, hr, hg⟩
    obtain ⟨hx, hk⟩ := (folderGroup_eq_some_iff hrows hr).mp hg
    refine ⟨(key, uint64 r.msize), List.mem_filterMap.mpr ⟨(p, r), hx, ?_⟩, rfl⟩
    rw [contribution, hk]
    rfl

include hroot

theorem summarisesFolders_iff (hrows : IndexReader.Delivered root current rows) :
    SummarisesFolders root top current rows ↔
      SelectsFolders root top current ∧ FitsFolders top current := by
  constructor
  · rintro ⟨hcounted, msizeMap, hmap, -, hvalue, -⟩
    rw [groupByFolderInSndLayer_eq] at hmap
    split_ifs at hmap with hlen
    obtain rfl := Option.some.inj hmap
    have hgroups : GroupsFolders root top current := fun p r key hr =>
      (folderGroup_eq_some_iff hrows hr).trans (hcounted p r key hr)
    refine ⟨hgroups.selects hroot fun p r hr hg => hlen (p, r) ((hrows.mem p r).mpr ⟨hr, hg⟩), ?_⟩
    intro key S hS
    rw [← hvalue key S hS, value_accumulate hrows]
    exact ⟨Int.emod_nonneg _ (by norm_num), Int.emod_lt_of_pos _ (by norm_num)⟩
  · rintro ⟨hselects, hfits⟩
    have hgroups := hselects.groups hroot
    have hlen : ∀ x ∈ rows, root.length < x.1.length := by
      rintro ⟨p, r⟩ hx
      obtain ⟨hr, hg⟩ := (hrows.mem p r).mp hx
      by_contra hl
      exact hl (length_of_below hroot hr ((hselects p r hr (.inl (not_lt.mp hl))).mp hg))
    have hvalue : ∀ key,
        (((accumulate (2 ^ 64) (rows.filterMap (contribution root))).find key).getD 0 : ℤ) =
          current.groupSum (folderGroup root) (fun r => r.msize) key := by
      intro key
      obtain ⟨hpos, hlt⟩ := hfits key _ hgroups.countedFor
      rw [value_accumulate hrows]
      exact Int.emod_eq_of_lt hpos hlt
    refine ⟨fun p r key hr => ?_, _, by rw [groupByFolderInSndLayer_eq, if_pos hlen], ?_, ?_, ?_⟩
    · rw [← folderGroup_eq_some_iff hrows hr, hgroups p r key hr]
    · intro key hkey
      obtain ⟨p, r, hr, hg⟩ := (mem_keys_folders hrows).mp hkey
      obtain ⟨name, -, -, hchild, -⟩ := (hgroups p r key hr).mp hg
      exact ⟨name, hchild⟩
    · intro key S hS
      rw [hvalue, hS.unique hgroups.countedFor]
      rfl
    · intro S hS
      have hall : S = current.select fun p r => (folderGroup root p r).isSome := by
        ext p
        rw [hS, Table.mem_select]
        refine exists_congr fun r => ?_
        rw [exists_and_left, Option.isSome_iff_exists]
        refine and_congr_right fun hr => exists_congr fun key => ?_
        rw [hgroups p r key hr]
      have hkeys : ∀ p r key, current.find p = some r → folderGroup root p r = some key →
          key ∈ (accumulate (2 ^ 64) (rows.filterMap (contribution root))).keys :=
        fun p r key hr hg => (mem_keys_folders hrows).mpr ⟨p, r, hr, hg⟩
      calc Table.sum (fun _ _ => true) Nat.cast _
          = ∑ key ∈ (accumulate (2 ^ 64) (rows.filterMap (contribution root))).keys,
              current.groupSum (folderGroup root) (fun r => r.msize) key := by
            rw [Table.sum_true]
            refine Finset.sum_congr rfl fun key _ => ?_
            rw [← hvalue key]
            cases (accumulate (2 ^ 64) (rows.filterMap (contribution root))).find key <;> rfl
        _ = current.sum (fun p r => (folderGroup root p r).isSome) fun r => r.msize :=
            Table.sum_groupSum hkeys
        _ = ∑ p ∈ S, msizeAt current p := by
            rw [hall]
            rfl

end Summary

/-! ## The root that is computed -/

/-- The computed root is the path of a node, and `/` only if nothing lies below it. -/
theorem exists_root (h : Canonical current) : ∃ top,
    (getTopRootInIndex current = canonical top ∨ getTopRootInIndex current = appended top) ∧
      ∀ p ∈ current.keys, StrictlyBelow top p → getTopRootInIndex current = appended top := by
  rcases current.keys.eq_empty_or_nonempty with hempty | hne
  · refine ⟨[], .inr ?_, by simp [hempty]⟩
    simp [getTopRootInIndex, hempty, appended]
  obtain ⟨least, most, hleast, hmost⟩ := exists_extremes hne
  rcases getTopRootInIndex_cases h hleast hmost with ⟨hroot, hm⟩ | ⟨-, top, hroot, -⟩
  · obtain ⟨top, rfl⟩ := h least hleast.1
    refine ⟨top, .inl hroot, fun p hp hbelow => ?_⟩
    rcases eq_or_ne top [] with rfl | htop
    · obtain ⟨name, rest, rfl⟩ := hbelow
      have hmost' : most = canonical [] := by
        rcases hm with hm | hm
        · exact hm
        · obtain ⟨names, rfl⟩ := h most hmost.1
          exact absurd hm not_root_slash_prefix
      rw [hmost'] at hmost
      have he := le_antisymm (hmost.2 hp) (hleast.2 hp)
      exact absurd (canonical_eq_root_iff.mp he) (by simp)
    · rw [hroot, canonical_of_ne_nil htop]
  · exact ⟨top, .inr hroot, fun _ _ _ => hroot⟩

/-- Without special characters, the pattern is wrong about the root directory only. -/
theorem selectsFolders_iff (h : Canonical current) (hmeta : ∀ c ∈ root, ¬Glob.IsMeta c)
    (htop : root = canonical top ∨ root = appended top)
    (hroot : ∀ p ∈ current.keys, StrictlyBelow top p → root = appended top) :
    SelectsFolders root top current ↔
      ¬(root = [] ∧ ∃ r, current.find ['/'] = some r ∧ r.nodeType = .dir) := by
  have hglob : ∀ p, glob (root ++ ['/', '*']) p = true ↔ root ++ ['/'] <+: p := by
    intro p
    have hpattern : root ++ ['/', '*'] = (root ++ ['/']) ++ ['*'] := by simp
    rw [hpattern, glob_append_star]
    intro c hc
    rcases List.mem_append.mp hc with hc | hc
    · exact hmeta c hc
    · rw [List.mem_singleton.mp hc]
      simp [Glob.IsMeta]
  constructor
  · rintro hselects ⟨rfl, r, hr, hdir⟩
    obtain ⟨name, rest, hp⟩ :=
      (hselects _ r hr (.inr (.inr hdir))).mp ((hglob _).mpr List.prefix_rfl)
    exact absurd (canonical_eq_root_iff.mp hp.symm) (by simp)
  · intro hno p r hr hmatters
    obtain ⟨names, rfl⟩ := h p (Table.mem_keys_of_find hr)
    rw [hglob]
    constructor
    · intro hp
      rcases htop with rfl | rfl
      · obtain ⟨-, name, rest, rfl⟩ := canonical_slash_prefix_iff.mp hp
        exact ⟨name, rest, rfl⟩
      · rcases appended_slash_prefix_iff.mp hp with ⟨rfl, rfl⟩ | ⟨name, rest, rfl⟩
        · -- the row of the root directory itself, which the loop skips unless it is a directory
          rcases hmatters with hlen | hslash | hdir
          · exact absurd hlen (by decide)
          · exact absurd hslash (by decide)
          · exact absurd ⟨rfl, r, hr, hdir⟩ hno
        · exact ⟨name, rest, rfl⟩
    · intro hbelow
      rw [hroot _ (Table.mem_keys_of_find hr) hbelow]
      obtain ⟨name, rest, hp⟩ := hbelow
      exact appended_slash_prefix_iff.mpr (.inr ⟨name, rest, canonical_inj.mp hp⟩)

/-- The summary by folder is right exactly if the pattern selects the rows below the root, apart
from rows that the loop skips, and the sizes below each child fit in 64 bits. For a root without
special characters the pattern is wrong only about the root directory itself, when the root is
empty. -/
theorem folder_summary_iff (current : Table Path CurrentRow) (rows : List (Path × CurrentRow))
    (h : Canonical current)
    (hrows : IndexReader.Delivered (getTopRootInIndex current) current rows) :
    ∃ top, (getTopRootInIndex current = canonical top ∨ getTopRootInIndex current = appended top) ∧
      (SummarisesFolders (getTopRootInIndex current) top current rows ↔
        SelectsFolders (getTopRootInIndex current) top current ∧ FitsFolders top current) ∧
      ((∀ c ∈ getTopRootInIndex current, ¬Glob.IsMeta c) →
        (SelectsFolders (getTopRootInIndex current) top current ↔
          ¬(getTopRootInIndex current = [] ∧
            ∃ r, current.find ['/'] = some r ∧ r.nodeType = .dir))) := by
  obtain ⟨top, htop, hroot⟩ := exists_root h
  refine ⟨top, htop, summarisesFolders_iff hroot hrows, fun hmeta => ?_⟩
  exact selectsFolders_iff h hmeta htop hroot

/-! ## Two indexes -/

theorem msizeAt_indexAt_nonneg {nodes : List (Path × NodeType)} :
    0 ≤ msizeAt (indexAt nodes) p := by
  rw [msizeAt, find_indexAt]
  cases nodes.lookup p with
  | none => exact le_rfl
  | some t => cases t <;> decide

theorem lookup_eq_some {nodes : List (Path × NodeType)} {t : NodeType}
    (h : (nodes.map Prod.fst).Nodup) : nodes.lookup p = some t ↔ (p, t) ∈ nodes := by
  induction nodes with
  | nil => simp
  | cons x nodes ih =>
    obtain ⟨q, u⟩ := x
    obtain ⟨hq, hnodup⟩ := List.nodup_cons.mp h
    by_cases hp : p = q
    · subst hp
      have hno : (p, t) ∉ nodes := fun hmem => hq (List.mem_map.mpr ⟨_, hmem, rfl⟩)
      simp [List.lookup_cons_self, hno, eq_comm]
    · rw [List.lookup_cons, beq_eq_false_iff_ne.mpr hp, ih hnodup, List.mem_cons, Prod.mk.injEq]
      simp [hp]

/-- The rows of the index whose paths match. -/
def rowsAt (root : Path) (nodes : List (Path × NodeType)) : List (Path × CurrentRow) :=
  (nodes.filter fun x => glob (root ++ ['/', '*']) x.1).map fun x => (x.1, rowOf x.2)

theorem delivered_indexAt {nodes : List (Path × NodeType)} (h : (nodes.map Prod.fst).Nodup) :
    IndexReader.Delivered root (indexAt nodes) (rowsAt root nodes) := by
  constructor
  · apply List.Nodup.of_map Prod.fst
    rw [rowsAt, List.map_map]
    exact h.sublist (List.filter_sublist.map _)
  · intro p r
    rw [rowsAt, find_indexAt, List.mem_map, Option.map_eq_some_iff]
    constructor
    · rintro ⟨⟨q, t⟩, hx, he⟩
      obtain ⟨rfl, rfl⟩ := Prod.mk.inj he
      obtain ⟨hmem, hg⟩ := List.mem_filter.mp hx
      exact ⟨⟨t, (lookup_eq_some h).mpr hmem, rfl⟩, hg⟩
    · rintro ⟨⟨t, ht, rfl⟩, hg⟩
      exact ⟨(p, t), List.mem_filter.mpr ⟨(lookup_eq_some h).mp ht, hg⟩, rfl⟩

/-- The directory `/a` with a file and the subdirectory `/a/b`, in which there is a file as well. -/
def directoryA : List (Path × NodeType) :=
  [(canonical [nameA], .dir), (canonical [nameA, nameA], .file), (canonical [nameA, nameB], .dir),
    (canonical [nameA, nameB, nameA], .file)]

/-- The file in `/a/b` is counted for this directory, and the one beside it for no folder. -/
theorem folder_summary_directory :
    let current := indexAt directoryA
    ∃ top, SummarisesFolders (getTopRootInIndex current) top current
      (rowsAt (getTopRootInIndex current) directoryA) := by
  intro current
  have hpaths : Canonical current := canonical_indexAt (by simp [directoryA])
  have hroot : getTopRootInIndex current = ['/', 'a'] := by decide +kernel
  obtain ⟨top, -, hsummary, hselects⟩ :=
    folder_summary_iff current _ hpaths (delivered_indexAt (by decide))
  refine ⟨top, hsummary.mpr ⟨(hselects ?_).mpr ?_, ?_⟩⟩
  · rw [hroot]
    simp [Glob.IsMeta]
  · rw [hroot]
    simp
  · intro key S hS
    have hkeys : S ⊆ current.keys := by
      intro p hp
      obtain ⟨r, hr, -⟩ := (hS p).mp hp
      exact Table.mem_keys_of_find hr
    have hall : ∑ p ∈ current.keys, msizeAt current p = 1024 := by decide +kernel
    refine ⟨Finset.sum_nonneg fun p _ => msizeAt_indexAt_nonneg, ?_⟩
    calc ∑ p ∈ S, msizeAt current p
        ≤ ∑ p ∈ current.keys, msizeAt current p :=
          Finset.sum_le_sum_of_subset_of_nonneg hkeys fun _ _ _ => msizeAt_indexAt_nonneg
      _ < 2 ^ 64 := by rw [hall]; decide

def nameStar : Name := ⟨['*', '[', 'a'], by decide, by decide, by decide⟩

def nameBracket : Name := ⟨['b', ']'], by decide, by decide, by decide⟩

/-- The directory `/*[a/b]` and its file. -/
def directoryStar : List (Path × NodeType) :=
  [(canonical [nameStar, nameBracket], .dir), (canonical [nameStar, nameBracket, nameA], .file)]

/-- The pattern of the root `/*[a/b]` matches the root itself, behind which there is nothing to cut
off. -/
theorem folder_summary_throws :
    let current := indexAt directoryStar
    let root := getTopRootInIndex current
    IndexReader.Delivered root current (rowsAt root directoryStar) ∧
      groupByFolderInSndLayer root (rowsAt root directoryStar) = none ∧
      ∀ top, ¬SummarisesFolders root top current (rowsAt root directoryStar) := by
  intro current root
  have hroot : root = canonical [nameStar, nameBracket] := by decide +kernel
  have hthrows : groupByFolderInSndLayer root (rowsAt root directoryStar) = none := by
    have hmem : (canonical [nameStar, nameBracket], rowOf .dir) ∈ rowsAt root directoryStar := by
      rw [hroot]
      decide
    rw [groupByFolderInSndLayer_eq, if_neg]
    intro h
    have hlt := h _ hmem
    rw [hroot] at hlt
    exact lt_irrefl _ hlt
  refine ⟨delivered_indexAt (by decide), hthrows, fun top h => ?_⟩
  obtain ⟨msizeMap, hmap, -⟩ := h.summary
  rw [hthrows] at hmap
  cases hmap

end ScanDaemon
