import Mathlib.Data.Char
import Mathlib.Data.Finset.Max
import Mathlib.Order.Bounds.Basic
import ScanDaemon.Scan.Paths

/-! # The root of the whole index

`get_top_root_in_index` compares the least and the greatest path of
`index_current` in the order of the characters and takes the directory that they
have in common. Every path between them starts with the same characters. It need
not be below the same directory: a name that goes on with a character before `/`
comes between a directory and its entries.
-/

namespace ScanDaemon

open Relational

namespace IndexReader

/-- `find_last_of` -/
def findLastOf (c : Char) (s : List Char) : Option ℕ :=
  (s.reverse.idxOf? c).map fun n => s.length - 1 - n

/-- How far the loop of `get_common_parent` gets. -/
def commonLength : Path → Path → ℕ
  | x :: a, y :: b => if x = y then commonLength a b + 1 else 0
  | _, _ => 0

/-- A component of the path may end in front of `i`. -/
def endsAt (a : Path) (i : ℕ) : Bool := i = a.length || a[i]? = some '/'

/-- `if (prefix.size() > 1 && prefix.back() == '/') prefix.pop_back()` -/
def popSlash (p : Path) : Path := if 1 < p.length ∧ p.getLast? = some '/' then p.dropLast else p

def getCommonParent (a b : Path) : Path :=
  let i := commonLength a b
  if i = 0 then [] else
  if endsAt a i && endsAt b i then popSlash (a.take i) else
  match findLastOf '/' (a.take i) with
  | none => []
  | some cut => popSlash ((a.take i).take cut)

/-- `SELECT MIN(path), MAX(path) FROM index_current WHERE path > ''` and `get_common_parent`; the
minimum of no paths is `NULL`. -/
def getTopRootInIndex (current : Table Path CurrentRow) : Path :=
  let paths := current.keys.filter fun p => [] < p
  if h : paths.Nonempty then getCommonParent (paths.min' h) (paths.max' h) else []

end IndexReader

open IndexReader

variable {a b p root u x y : Path} {i : ℕ} {names top : List Name} {current : Table Path CurrentRow}

theorem idxOf?_append {c : Char} (h : c ∉ y) : (y ++ c :: x).idxOf? c = some y.length := by
  induction y with
  | nil => simp [List.idxOf?_cons]
  | cons d y ih =>
    have hd : d ≠ c := fun he => h (he ▸ List.mem_cons_self)
    rw [List.cons_append, List.idxOf?_cons, ih fun hc => h (List.mem_cons_of_mem d hc)]
    simp [hd]

theorem findLastOf_append {c : Char} (h : c ∉ y) :
    findLastOf c (x ++ c :: y) = some x.length := by
  have hrev : (x ++ c :: y).reverse = y.reverse ++ c :: x.reverse := by simp
  rw [findLastOf, hrev, idxOf?_append (by simpa using h)]
  simp

/-- The loop ends behind the common prefix. -/
theorem commonLength_spec (a b : Path) : ∃ u x y, a = u ++ x ∧ b = u ++ y ∧
    commonLength a b = u.length ∧ ∀ c, x.head? = some c → y.head? ≠ some c := by
  induction a generalizing b with
  | nil => exact ⟨[], [], b, rfl, rfl, by simp [commonLength], by simp⟩
  | cons d a ih =>
    cases b with
    | nil => exact ⟨[], d :: a, [], rfl, rfl, by simp [commonLength], by simp⟩
    | cons e b =>
      by_cases h : d = e
      · subst h
        obtain ⟨u, x, y, rfl, rfl, hl, hne⟩ := ih b
        exact ⟨d :: u, x, y, rfl, rfl, by simp [commonLength, hl], hne⟩
      · refine ⟨[], d :: a, e :: b, rfl, rfl, by simp [commonLength, h], ?_⟩
        rintro c hc he
        exact h ((Option.some.inj hc).trans (Option.some.inj he).symm)

theorem endsAt_append : endsAt (u ++ x) u.length = true ↔ x = [] ∨ x.head? = some '/' := by
  simp only [endsAt, Bool.or_eq_true, decide_eq_true_eq, List.getElem?_append_right le_rfl,
    Nat.sub_self, List.head?_eq_getElem?, List.length_append]
  simp

/-- The path of a node does not end with a slash. -/
theorem popSlash_appended : popSlash (appended names) = appended names := by
  rw [popSlash, if_neg]
  rintro ⟨-, hlast⟩
  rcases List.eq_nil_or_concat names with rfl | ⟨names, name, rfl⟩
  · cases hlast
  · have hend : appended (names.concat name) = appended names ++ ['/'] ++ name.chars := by
      simp [List.concat_eq_append, appended]
    rw [hend, List.getLast?_append_of_ne_nil _ name.ne_nil] at hlast
    exact name.no_slash (List.mem_of_getLast? hlast)

theorem popSlash_canonical : popSlash (canonical names) = canonical names := by
  rcases eq_or_ne names [] with rfl | h
  · rfl
  · rw [canonical_of_ne_nil h, popSlash_appended]

theorem canonical_head (names : List Name) : (canonical names).head? = some '/' := by
  cases names <;> rfl

/-- In front of a slash, a canonical path is the path of a node above. -/
theorem cut_canonical (h : x ++ '/' :: y = canonical names) :
    ∃ top, x = appended top ∧ top <+: names := by
  rcases eq_or_ne names [] with rfl | hn
  · refine ⟨[], ?_, List.nil_prefix⟩
    have hlen := congrArg List.length h
    simp only [List.length_append, List.length_cons, canonical_nil, List.length_nil] at hlen
    exact List.eq_nil_of_length_eq_zero (by omega)
  · rw [canonical_of_ne_nil hn, appended_eq_joined] at h
    obtain ⟨v₁, v₂, hv, rfl, -⟩ := Components.cut_joined clean_chars h
    obtain ⟨top, rest, rfl, rfl, -⟩ := List.map_eq_append_iff.mp hv
    exact ⟨top, appended_eq_joined.symm, List.prefix_append top rest⟩

theorem commonLength_append (a y : Path) : commonLength a (a ++ y) = a.length := by
  induction a with
  | nil => simp [commonLength]
  | cons d a ih => simp [commonLength, ih]

/-- The common directory of a path and one below it, or itself, is the path. -/
theorem getCommonParent_append (ha : popSlash a = a) (hy : y = [] ∨ y.head? = some '/') :
    getCommonParent a (a ++ y) = a := by
  have hends : endsAt a a.length = true := by simp [endsAt]
  rw [getCommonParent, commonLength_append, hends, endsAt_append.mpr hy, Bool.and_self, if_pos rfl,
    List.take_length, ha, ite_eq_right_iff, List.length_eq_zero_iff]
  exact Eq.symm

/-- The common directory of two other paths is cut in front of the last slash that they have in
common. -/
theorem getCommonParent_cut (ha : canonical names = a) (hb : b.head? = some '/') (hlt : a < b)
    (hno : ¬a ++ ['/'] <+: b) : ∃ top u, getCommonParent a b = appended top ∧ u <+: a ∧ u <+: b ∧
      appended top ++ ['/'] <+: u := by
  obtain ⟨u, x, y, rfl, rfl, hl, hne⟩ := commonLength_spec a b
  have hslash : '/' ∈ u := by
    cases u with
    | nil =>
      have hx : x.head? = some '/' := by
        rw [← List.nil_append x, ← ha]
        exact canonical_head names
      exact absurd hb (hne '/' hx)
    | cons d u =>
      have hd : d = '/' := by simpa using hb
      exact hd ▸ List.mem_cons_self
  have hends : (endsAt (u ++ x) u.length && endsAt (u ++ y) u.length) = false := by
    rw [← Bool.not_eq_true, Bool.and_eq_true, endsAt_append, endsAt_append]
    rintro ⟨rfl | hx, rfl | hy⟩
    · exact lt_irrefl _ hlt
    · obtain ⟨rest, rfl⟩ := List.head?_eq_some_iff.mp hy
      exact hno ⟨rest, by simp⟩
    · rw [List.append_nil] at hlt
      exact absurd Components.le_append (not_le.mpr hlt)
    · exact hne '/' hx hy
  obtain ⟨w, v, hw, hnot⟩ := List.eq_append_cons_of_mem (List.mem_reverse.mpr hslash)
  have hu : u = v.reverse ++ '/' :: w.reverse := by
    rw [← List.reverse_reverse u, hw]
    simp
  have hpath : v.reverse ++ '/' :: (w.reverse ++ x) = canonical names := by simp [ha, hu]
  obtain ⟨top, htop, -⟩ := cut_canonical hpath
  refine ⟨top, u, ?_, List.prefix_append u x, List.prefix_append u y, ?_⟩
  · have hpos : u.length ≠ 0 := by simp [hu]
    rw [getCommonParent, hl, if_neg hpos, hends, if_neg Bool.false_ne_true, List.take_left, hu,
      findLastOf_append (by simpa using hnot)]
    simp only [List.take_left]
    rw [htop, popSlash_appended]
  · rw [hu, htop]
    exact ⟨w.reverse, by simp⟩

/-! ## The root of an index -/

/-- Every path is the one of a node. -/
def Canonical (current : Table Path CurrentRow) : Prop :=
  ∀ p ∈ current.keys, ∃ names, canonical names = p

section Extremes

variable {least most : Path} (h : Canonical current) (hleast : IsLeast ↑current.keys least)
  (hmost : IsGreatest ↑current.keys most)
include h hleast hmost

theorem getTopRootInIndex_eq : getTopRootInIndex current = getCommonParent least most := by
  have hfilter : (current.keys.filter fun p => [] < p) = current.keys := by
    rw [Finset.filter_eq_self]
    intro p hp
    obtain ⟨names, rfl⟩ := h p hp
    obtain ⟨rest, hrest⟩ := List.head?_eq_some_iff.mp (canonical_head names)
    rw [hrest]
    exact List.nil_lt_cons _ _
  have hne : current.keys.Nonempty := ⟨least, hleast.1⟩
  have hmin : current.keys.min' hne = least := (current.keys.isLeast_min' hne).unique hleast
  have hmax : current.keys.max' hne = most := (current.keys.isGreatest_max' hne).unique hmost
  simp only [getTopRootInIndex, hfilter, hne, dif_pos, hmin, hmax]

/-- Either the root is the least path and the greatest one is below it or the same, or it is the
last directory on the common part of the two. -/
theorem getTopRootInIndex_cases :
    (getTopRootInIndex current = least ∧ (most = least ∨ least ++ ['/'] <+: most)) ∨
      ¬least ++ ['/'] <+: most ∧ ∃ top, getTopRootInIndex current = appended top ∧
        ∀ p ∈ current.keys, appended top ++ ['/'] <+: p := by
  rw [getTopRootInIndex_eq h hleast hmost]
  obtain ⟨names, hnames⟩ := h least hleast.1
  obtain ⟨names', hnames'⟩ := h most hmost.1
  by_cases hnested : least ++ ['/'] <+: most
  · obtain ⟨y, hy⟩ := hnested
    rw [List.append_assoc] at hy
    refine .inl ⟨?_, .inr ⟨y, by rw [List.append_assoc, hy]⟩⟩
    rw [← hy, ← hnames]
    exact getCommonParent_append popSlash_canonical (.inr rfl)
  rcases (hleast.2 hmost.1).eq_or_lt with rfl | hlt
  · refine .inl ⟨?_, .inl rfl⟩
    have hself : getCommonParent (canonical names) (canonical names ++ []) = canonical names :=
      getCommonParent_append popSlash_canonical (.inl rfl)
    rwa [List.append_nil, hnames] at hself
  · have hhead : most.head? = some '/' := hnames' ▸ canonical_head names'
    obtain ⟨top, u, hroot, hl, hm, hu⟩ := getCommonParent_cut hnames hhead hlt hnested
    refine .inr ⟨hnested, top, hroot, fun p hp => ?_⟩
    exact hu.trans (Components.prefix_of_between (hleast.2 hp) (hmost.2 hp) hl hm)

end Extremes

theorem exists_extremes (hne : current.keys.Nonempty) :
    ∃ least most, IsLeast (↑current.keys : Set Path) least ∧
      IsGreatest (↑current.keys : Set Path) most :=
  ⟨_, _, current.keys.isLeast_min' hne, current.keys.isGreatest_max' hne⟩

/-- The root is the path of a node that is above every node of the index or the node itself; the
empty path stands for the root directory. -/
def IsAncestor (root : Path) (current : Table Path CurrentRow) : Prop :=
  ∃ top, (root = canonical top ∨ root = appended top) ∧
    ∀ names, canonical names ∈ current.keys → top <+: names

/-- No path goes on behind the least one with another character than a slash, should the greatest
one lie below the least one. -/
def NothingBeside (current : Table Path CurrentRow) : Prop :=
  ∀ least most, IsLeast (↑current.keys : Set Path) least →
    IsGreatest (↑current.keys : Set Path) most → least ++ ['/'] <+: most →
      ∀ c rest, least ++ c :: rest ∈ current.keys → c = '/'

theorem covers_iff (h : Canonical current) :
    (∀ p ∈ current.keys, p = getTopRootInIndex current ∨ getTopRootInIndex current ++ ['/'] <+: p) ↔
      NothingBeside current := by
  constructor
  · intro hcovers least most hleast hmost hnested c rest hmem
    rcases getTopRootInIndex_cases h hleast hmost with ⟨hroot, -⟩ | ⟨hno, -⟩
    · rw [hroot] at hcovers
      rcases hcovers _ hmem with he | hp
      · simp at he
      · rw [List.prefix_append_right_inj] at hp
        exact (List.cons_prefix_cons.mp hp).1.symm
    · exact absurd hnested hno
  · intro hbeside p hp
    obtain ⟨least, most, hleast, hmost⟩ := exists_extremes ⟨p, hp⟩
    rcases getTopRootInIndex_cases h hleast hmost with ⟨hroot, hm⟩ | ⟨-, top, hroot, hall⟩
    · rw [hroot]
      have hprefix : least <+: p := by
        apply Components.prefix_of_between (hleast.2 hp) (hmost.2 hp) List.prefix_rfl
        rcases hm with rfl | hm
        · exact List.prefix_rfl
        · exact (List.prefix_append least _).trans hm
      obtain ⟨rest, rfl⟩ := hprefix
      cases rest with
      | nil => exact .inl (List.append_nil least)
      | cons c rest =>
        rcases hm with rfl | hm
        · have hle : most ++ c :: rest = most := le_antisymm (hmost.2 hp) (hleast.2 hp)
          simp at hle
        · obtain rfl := hbeside least most hleast hmost hm c rest hp
          exact .inr ⟨rest, by simp⟩
    · rw [hroot]
      exact .inr (hall p hp)

/-- The computed root is an ancestor of every path or the path itself, and the patterns of the
summaries cover the index, exactly if no path goes on behind the least one with a character that
comes before the slash, should the greatest path lie below the least one. -/
theorem top_root_iff (current : Table Path CurrentRow) (h : Canonical current) :
    (IsAncestor (getTopRootInIndex current) current ↔ NothingBeside current) ∧
    ((∀ p ∈ current.keys,
        p = getTopRootInIndex current ∨ getTopRootInIndex current ++ ['/'] <+: p) ↔
      NothingBeside current) := by
  refine ⟨?_, covers_iff h⟩
  constructor
  · rintro ⟨top, hroot, hall⟩ least most hleast hmost hnested c rest hmem
    obtain ⟨names, rfl⟩ := h least hleast.1
    obtain ⟨names', rfl⟩ := h most hmost.1
    have hne : names ≠ [] := (canonical_slash_prefix_iff.mp hnested).1
    -- the root is the least path
    have heq : getTopRootInIndex current = canonical names := by
      rcases getTopRootInIndex_cases h hleast hmost with ⟨hroot, -⟩ | ⟨hno, -⟩
      · exact hroot
      · exact absurd hnested hno
    have htop : names = top := by
      rw [heq] at hroot
      rcases hroot with hroot | hroot
      · exact canonical_inj.mp hroot
      · rwa [canonical_of_ne_nil hne, appended_inj] at hroot
    obtain ⟨below, hbelow⟩ := h _ hmem
    obtain ⟨rel, rfl⟩ := hall below (hbelow ▸ hmem)
    rw [← htop, canonical_of_ne_nil (by simp [hne]), canonical_of_ne_nil hne, appended_append,
      List.append_cancel_left_eq] at hbelow
    cases rel with
    | nil => cases hbelow
    | cons name rel => exact (List.cons.inj hbelow).1.symm
  · intro hbeside
    rcases current.keys.eq_empty_or_nonempty with hempty | hne
    · have hroot : getTopRootInIndex current = appended [] := by
        simp [getTopRootInIndex, hempty, appended]
      exact ⟨[], .inr hroot, by simp [hempty]⟩
    obtain ⟨least, most, hleast, hmost⟩ := exists_extremes hne
    rcases getTopRootInIndex_cases h hleast hmost with ⟨hroot, -⟩ | ⟨-, top, hroot, hall⟩
    · obtain ⟨top, rfl⟩ := h least hleast.1
      refine ⟨top, .inl hroot, fun names hmem => ?_⟩
      have hcover := (covers_iff h).mpr hbeside _ hmem
      rw [hroot, canonical_inj, canonical_slash_prefix_iff] at hcover
      rcases hcover with rfl | ⟨-, name, rest, rfl⟩
      · exact List.prefix_rfl
      · exact List.prefix_append top _
    · refine ⟨top, .inr hroot, fun names hmem => ?_⟩
      rcases appended_slash_prefix_iff.mp (hall _ hmem) with ⟨rfl, rfl⟩ | ⟨name, rest, rfl⟩
      · exact List.prefix_rfl
      · exact List.prefix_append top _

/-! ## Two directories -/

/-- The row of a node, which is one block if it is a file. -/
def rowOf (t : NodeType) : CurrentRow := ⟨⟨t, 0, if t = .file then 512 else 0, .alive, [], []⟩, 1⟩

/-- The index of some nodes. -/
def indexAt (nodes : List (Path × NodeType)) : Table Path CurrentRow :=
  nodes.foldr (fun x t => t.replace x.1 (rowOf x.2)) ∅

theorem find_indexAt {nodes : List (Path × NodeType)} :
    (indexAt nodes).find p = (nodes.lookup p).map rowOf := by
  induction nodes with
  | nil => rfl
  | cons x nodes ih =>
    obtain ⟨q, t⟩ := x
    have hcons : indexAt ((q, t) :: nodes) = (indexAt nodes).replace q (rowOf t) := rfl
    rw [hcons, Table.find_replace, ih]
    by_cases h : p = q
    · rw [if_pos h, h, List.lookup_cons_self]
      rfl
    · rw [if_neg h, List.lookup_cons, beq_eq_false_iff_ne.mpr h]

theorem mem_indexAt {nodes : List (Path × NodeType)} :
    p ∈ (indexAt nodes).keys ↔ ∃ x ∈ nodes, p = x.1 := by
  rw [Table.mem_keys, find_indexAt, Option.isSome_map, List.lookup_isSome_iff]
  simp only [beq_iff_eq]

theorem canonical_indexAt {nodes : List (Path × NodeType)}
    (h : ∀ x ∈ nodes, ∃ names, canonical names = x.1) : Canonical (indexAt nodes) := by
  intro p hp
  obtain ⟨x, hx, rfl⟩ := mem_indexAt.mp hp
  exact h x hx

def nameAB : Name := ⟨['a', '-', 'b'], by decide, by decide, by decide⟩

/-- A directory is the root of the index of itself and its file. -/
theorem top_root_directory :
    let current := indexAt [(canonical [nameA], .dir), (canonical [nameA, nameB], .file)]
    IsAncestor (getTopRootInIndex current) current := by
  intro current
  have hpaths : Canonical current := canonical_indexAt (by simp)
  refine (top_root_iff current hpaths).1.mpr ?_
  intro least most hleast hmost hnested c rest hmem
  have hl : least = ['/', 'a'] ∨ least = ['/', 'a', '/', 'b'] := by
    simpa [nameA, nameB, canonical, appended] using mem_indexAt.mp hleast.1
  rcases hl with rfl | rfl
  · have hcr : c = '/' ∧ rest = ['b'] := by
      simpa [nameA, nameB, canonical, appended] using mem_indexAt.mp hmem
    exact hcr.1
  · simpa [nameA, nameB, canonical, appended] using mem_indexAt.mp hmem

/-- The directory `/a-b` sorts between `/a` and its file and is not below the root `/a`. -/
theorem top_root_beside :
    let current := indexAt
      [(canonical [nameA], .dir), (canonical [nameAB], .dir), (canonical [nameA, nameB], .file)]
    ¬IsAncestor (getTopRootInIndex current) current := by
  rintro current ⟨top, hroot, hall⟩
  have heq : getTopRootInIndex current = canonical [nameA] := by decide +kernel
  have htop : [nameA] = top := by
    rw [heq] at hroot
    rcases hroot with hroot | hroot
    · exact canonical_inj.mp hroot
    · exact appended_inj.mp hroot
  have hprefix := hall [nameAB] (by decide +kernel)
  rw [← htop] at hprefix
  simp [nameA, nameAB] at hprefix

end ScanDaemon
